/-
  Quietwire.Ratchet.Budget

  The skip budget: while at most 1 000 other frames are outstanding, no limit is
  hit, a frame that was not opened yet opens, and the stores stay complete.
-/
import Quietwire.Ratchet.Deliverable
import Quietwire.Ratchet.Stocked

namespace Quietwire

variable {α σ : Type} [DecidableEq α] [Octet α] {P : Primitives α σ} {sharedKey : SecretKey α}
  {naming : Naming}

namespace World

variable {w : World α σ} {x : Party} {s : Sealing α}

/-! ## The skip budget -/

/-- Frames of one chain that the receiving chain has not passed are outstanding. -/
theorem Lockstep.length_le_others_of_not_passed (h : Lockstep P sharedKey .byLabel w)
    (distinct : Naming.byLabel.Distinct w) (chain position count : Nat)
    (hcount : position + count ≤ (w.sentIn x.peer chain).length)
    (hnot : ∀ t ∈ w.sentIn x.peer chain, position ≤ t.number → t.number < position + count →
      ¬ w.Passed x t ∧ t ≠ s) (hs : s ∈ w.unopened x) : count ≤ (w.others x s).length := by
  obtain ⟨hsMem, hsSender, -⟩ := mem_unopened.mp hs
  have hnumbers : (List.range' position count) ⊆ (w.others x s).map Sealing.number := by
    intro n hn
    obtain ⟨i, hi, rfl⟩ := List.mem_range'.mp hn
    rw [Nat.one_mul] at *
    have hbelow : position + i < (w.sentIn x.peer chain).length := by omega
    obtain ⟨t, ht, hnumber⟩ := h.exists_number hbelow
    obtain ⟨hmem, hsender, -⟩ := mem_sentIn.mp ht
    obtain ⟨hpassed, hne⟩ := hnot t ht (by omega) (by omega)
    have hunopened := h.unopened_of_not_passed distinct hmem hsender hpassed
    refine List.mem_map.mpr ⟨t, mem_others.mpr
      ⟨mem_unopened_of_label hmem hsender hunopened, fun heq => hne ?_⟩, hnumber⟩
    exact distinct.eq_of_sealed hmem hsMem (hsender.trans hsSender.symm) heq
  have hle := (List.subperm_of_subset (List.nodup_range' 1) hnumbers).length_le
  rw [List.length_range', List.length_map] at hle
  exact hle

/-- Within the skip budget, every frame that was not opened yet opens, unless its key was
    evicted before. -/
theorem Lockstep.decrypts (h : Lockstep P sharedKey .byLabel w) (correct : CorrectPrimitives P)
    (hkept : w.Kept x s) (hdistinct : (w.ratchets.map (publicKey P)).Nodup)
    (hs : s ∈ w.unopened x) (hbudget : (w.others x s).length ≤ 1000) (own : σ) :
    ∃ key s', Session.Decrypted P (w.session x) s.sealed (.ok own) s.plaintext key s' ∧
      Opened P sharedKey .byLabel w x s.sealed s.plaintext s key s'
        ((w.session x).takesStep s.header) := by
  have distinct := h.distinct_byLabel hdistinct
  obtain ⟨hmem, hsender, -⟩ := mem_unopened.mp hs
  have hunopened := h.label_unopened distinct hs
  have hsent : s ∈ w.sentIn x.peer s.chain := mem_sentIn.mpr ⟨hmem, hsender, rfl⟩
  have hbelow := h.number_lt hsent
  by_cases hpassed : w.Passed x s
  · obtain ⟨e, he, hstored⟩ := hkept hpassed
    exact h.decrypts_stored hdistinct hmem hsender hunopened correct _ he hstored
  refine h.decrypts_inReach hdistinct hmem hsender hpassed correct distinct ?_ own
  rcases h.chain_of_not_passed hmem hsender hpassed with ⟨hchain, hahead⟩ | hchain
  · have hovertaken : s.number - w.received x ≤ (w.others x s).length := by
      refine h.length_le_others_of_not_passed distinct s.chain (w.received x) _
        (by omega) (fun t ht hge hlt => ⟨?_, ?_⟩) hs
      · obtain ⟨-, -, hin⟩ := mem_sentIn.mp ht
        exact World.not_passed_of_le (hin.trans hchain) hge
      · rintro rfl
        omega
    exact .inl ⟨hchain, by omega⟩
  · -- the frames missing from the current chain, and those overtaken in the next
    have hmissing : (w.sentIn x.peer (w.steps x)).length - w.received x
        ≤ (w.others x s).length := by
      have hreceived := (h.synced x).received_le
      refine h.length_le_others_of_not_passed distinct (w.steps x) (w.received x) _
        (by omega) (fun t ht hge hlt => ⟨?_, ?_⟩) hs
      · obtain ⟨-, -, hin⟩ := mem_sentIn.mp ht
        exact World.not_passed_of_le hin hge
      · rintro rfl
        obtain ⟨-, -, hin⟩ := mem_sentIn.mp ht
        omega
    have hovertaken : s.number ≤ (w.others x s).length := by
      refine h.length_le_others_of_not_passed distinct s.chain 0 _ (by omega)
        (fun t ht hge hlt => ⟨?_, ?_⟩) hs
      · obtain ⟨-, -, hin⟩ := mem_sentIn.mp ht
        exact World.not_passed_of_lt (by omega)
      · rintro rfl
        omega
    exact .inr ⟨hchain, by omega, by omega⟩

/-! ## Runs within the budget -/

/-- The allowed calls of a run within the skip budget: any `encrypt`, the delivery of an
    outstanding frame while at most 1 000 others are outstanding, with a ratchet key drawn
    in case one is needed, and any frame that does not authenticate under the key that the
    session tries it under. -/
def Budgeted (P : Primitives α σ) (w : World α σ) : Event α σ → Prop
  | .encrypt _ _ _ => True
  | .decrypt x sealed generated =>
    (∃ s ∈ w.unopened x, s.sealed = sealed ∧ (w.others x s).length ≤ 1000 ∧
      ∃ own, generated = .ok own) ∨
    ∀ key plaintext, (w.session x).messageKeyFor P (Header.parse sealed.frame) = some key →
      ¬ Opens P key sealed plaintext

section Runs

variable (h : Lockstep P sharedKey .byLabel w) (correct : CorrectPrimitives P)
  (hst : w.Stocked) (hdistinct : (w.ratchets.map (publicKey P)).Nodup)

include h correct hst hdistinct

/-- A frame that opens within the budget was outstanding, with at most 1 000 others. -/
theorem Budgeted.opened {sealed : SealedFrame α} {generated : Except CryptoError σ}
    {plaintext : Plaintext α} {key : Key α} {s' : Session α σ}
    (hbudgeted : w.Budgeted P (.decrypt x sealed generated))
    (run : Session.Decrypted P (w.session x) sealed generated plaintext key s') :
    ∃ t, Opened P sharedKey .byLabel w x sealed plaintext t key s'
      ((w.session x).takesStep (Header.parse sealed.frame)) ∧ (w.others x t).length ≤ 1000 := by
  rcases hbudgeted with ⟨s, hs, rfl, hothers, own, rfl⟩ | hrefused
  · obtain ⟨key', session', hdecrypted, hopened⟩ :=
      h.decrypts correct (hst x s hs) hdistinct hs hothers own
    obtain ⟨rfl, rfl, rfl⟩ := run.unique P hdecrypted
    exact ⟨s, hopened, hothers⟩
  · exact absurd run.opens (hrefused key plaintext run.messageKeyFor)

theorem Budgeted.traced {event : Event α σ} (hbudgeted : w.Budgeted P event) :
    w.Traced P sharedKey .byLabel event := by
  cases event with
  | encrypt sender random plaintext => trivial
  | decrypt receiver sealed generated =>
    intro plaintext key s' run
    obtain ⟨t, hopened, -⟩ := hbudgeted.opened h correct hst hdistinct run
    exact ⟨t, hopened⟩

/-- A call within the budget keeps the stores complete. -/
theorem Stocked.call (event : Event α σ) (hbudgeted : w.Budgeted P event) :
    (w.step P event).1.Stocked := by
  have distinct := h.distinct_byLabel hdistinct
  cases hw : w.step P event with
  | mk w' output =>
    have htransition := w.step_transition (P := P) event
    rw [hw] at htransition
    cases htransition with
    | refusedSealing => exact hst
    | refusedOpening => exact hst
    | sealed run => exact hst.sealing h run
    | opened run stays =>
      obtain ⟨t, hopened, hothers⟩ := hbudgeted.opened h correct hst hdistinct run
      rw [stays] at hopened
      exact hst.budgeted h distinct hopened hothers
    | stepped run steps =>
      obtain ⟨t, hopened, hothers⟩ := hbudgeted.opened h correct hst hdistinct run
      rw [steps] at hopened
      exact hst.budgeted h distinct hopened hothers

end Runs

/-- The invariant of a run within the skip budget. -/
theorem stocked_reaches {w₀ : World α σ} (correct : CorrectPrimitives P)
    {signedPrekey ownRatchet : σ}
    (hstart : World.start P sharedKey signedPrekey ownRatchet = .ok w₀)
    (hreaches : Machine.Reaches (World.step P) (World.Budgeted P) w₀ w)
    (hdistinct : (w.ratchets.map (publicKey P)).Nodup) :
    Lockstep P sharedKey .byLabel w ∧ w.Stocked := by
  -- the keys drawn later do not matter earlier in the run
  refine hreaches.invariant (I := fun v => (v.ratchets.map (publicKey P)).Nodup →
    Lockstep P sharedKey .byLabel v ∧ v.Stocked) (fun v event hv hbudgeted hnodup => ?_) ?_
    hdistinct
  · have hbefore := nodup_of_suffix (v.ratchets_suffix_step event) hnodup
    obtain ⟨h, hst⟩ := hv hbefore
    exact ⟨h.step (h.distinct_byLabel hbefore) event (hbudgeted.traced h correct hst hbefore),
      hst.call h correct hbefore event hbudgeted⟩
  · intro _
    refine ⟨Lockstep.start hstart, fun y s hs => ?_⟩
    obtain ⟨-, rfl⟩ := World.start_eq_ok_iff.mp hstart
    cases (mem_unopened.mp hs).1

/-! ## What an opened frame leaves behind -/

omit [DecidableEq α] [Octet α] in
/-- `x` opened the frame `s`, with the ratchet key `own` at hand, and reached `v`. -/
structure Admitted (w : World α σ) (x : Party) (s : Sealing α) (own : σ) (v : World α σ) :
    Prop where
  log : ∃ o, o.receiver = x ∧ o.sealed = s.sealed ∧ v.log = .opened o :: w.log
  steps : v.steps x = max (w.steps x) s.chain
  stepsElse : v.steps x.peer = w.steps x.peer
  sessionElse : v.session x.peer = w.session x.peer
  ratchets : v.ratchets = if s.chain ≤ w.steps x then w.ratchets else own :: w.ratchets

variable {v : World α σ} {own : σ}

namespace Admitted

variable (a : w.Admitted x s own v)
include a

omit [DecidableEq α] [Octet α] in
theorem sealings : v.sealings = w.sealings := by
  obtain ⟨o, -, -, hlog⟩ := a.log
  exact sealings_of_opened hlog

omit [DecidableEq α] [Octet α] in
theorem openedBy_self : ∃ o, o.sealed = s.sealed ∧ v.openedBy x = o :: w.openedBy x := by
  obtain ⟨o, rfl, hsealed, hlog⟩ := a.log
  exact ⟨o, hsealed, by rw [openedBy_of_opened hlog, if_pos rfl]⟩

omit [Octet α] in
/-- The frame is not outstanding any more, and all others still are. -/
theorem mem_unopened (y : Party) (u : Sealing α) :
    u ∈ v.unopened y ↔ u ∈ w.unopened y ∧ (y = x → u.sealed ≠ s.sealed) := by
  obtain ⟨o, rfl, hsealed, hlog⟩ := a.log
  rw [mem_unopened_of_opened hlog, hsealed]

omit [DecidableEq α] [Octet α] in
/-- At most one ratchet key was drawn. -/
theorem ratchets_cases : v.ratchets = w.ratchets ∨ v.ratchets = own :: w.ratchets := by
  rw [a.ratchets]
  split
  · exact .inl rfl
  · exact .inr rfl

end Admitted

/-- What a frame leaves behind that opened as the frame it was sealed as. -/
theorem Opened.admitted {key : Key α} {s' : Session α σ}
    (run : Session.Decrypted P (w.session x) s.sealed (.ok own) s.plaintext key s')
    (hopened : Opened P sharedKey naming w x s.sealed s.plaintext s key s'
      ((w.session x).takesStep s.header)) :
    w.Admitted x s own (w.step P (.decrypt x s.sealed (.ok own))).1 := by
  rw [World.step, decrypt_of_decrypted run]
  generalize hsteps : (w.session x).takesStep (Header.parse s.sealed.frame) = stepped
  rw [Sealing.header, hsteps] at hopened
  -- the key was stored, or the chain is the current one, or there was a ratchet step
  cases hopened with
  | skipped store origin passed stored =>
    have hchain : s.chain ≤ w.steps x := by
      rcases passed with hlt | ⟨heq, -⟩
      · exact Nat.le_of_lt hlt
      · exact Nat.le_of_eq heq
    rw [if_neg Bool.false_ne_true]
    exact ⟨⟨_, rfl, rfl, rfl⟩, (Nat.max_eq_left hchain).symm, rfl,
      session_recordOpening_of_ne _ _ _ x.peer_ne, (if_pos hchain).symm⟩
  | current origin hcurrent ahead =>
    have hchain : s.chain ≤ w.steps x := Nat.le_of_eq hcurrent
    rw [if_neg Bool.false_ne_true]
    exact ⟨⟨_, rfl, rfl, rfl⟩, (Nat.max_eq_left hchain).symm, rfl,
      session_recordOpening_of_ne _ _ _ x.peer_ne, (if_pos hchain).symm⟩
  | step origin hnext next ahead sendingKeys =>
    have hown := run.ownRatchet_eq P hsteps
    rw [if_pos rfl]
    refine ⟨⟨_, rfl, rfl, rfl⟩, ?_, steps_recordStep_of_ne _ _ _ x.peer_ne,
      session_recordStep_of_ne _ _ _ x.peer_ne, ?_⟩
    · refine (steps_recordStep_self w _ _).trans ?_
      show w.steps x + 1 = _
      omega
    · rw [ratchets_recordStep, hown, if_neg (by omega)]

end World

end Quietwire
