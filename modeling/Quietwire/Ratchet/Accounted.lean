/-
  Quietwire.Ratchet.Accounted

  Every frame that the receiving chain has passed and that was not opened is
  accounted for: its key is in the store of skipped keys, or it was lost from there.
  What counts as lost is a parameter.
-/
import Quietwire.Ratchet.Outstanding

namespace Quietwire

variable {α σ : Type} [DecidableEq α] [Octet α] {P : Primitives α σ} {sharedKey : SecretKey α}
  {naming : Naming}

namespace World

/-- The key of every frame that a party's receiving chain has passed and that it has not
    opened is in its store, or lost. -/
def Accounted (lost : Party → SkippedKey α → Prop) (w : World α σ) : Prop :=
  ∀ x, ∀ s ∈ w.unopened x, w.Passed x s →
    ∃ e, w.StoredFor x e s ∧ (e ∈ (w.session x).skipped ∨ lost x e)

variable {w w' : World α σ} {x : Party} {s' : Session α σ} {o : Opening α} {t : Sealing α}
  {lost lost' : Party → SkippedKey α → Prop}

theorem Accounted.mono (ha : w.Accounted lost) (hmono : ∀ y e, lost y e → lost' y e) :
    w.Accounted lost' := by
  intro y s hs hpassed
  obtain ⟨e, hstored, hkept⟩ := ha y s hs hpassed
  exact ⟨e, hstored, hkept.imp_right (hmono y e)⟩

/-! ## Sealing -/

theorem Accounted.recordSealing {sealing : Sealing α} (ha : w.Accounted lost)
    (hreceiving : s'.receiving = (w.session sealing.sender).receiving)
    (hskipped : s'.skipped = (w.session sealing.sender).skipped)
    (hnew : ¬ w.Passed sealing.sender.peer sealing) :
    (w.recordSealing s' sealing).Accounted lost := by
  intro y s hs hpassed
  obtain ⟨hmem, hsender, hunopened⟩ := mem_unopened.mp hs
  rw [passed_recordSealing hreceiving] at hpassed
  rcases List.mem_cons.mp hmem with rfl | hold
  · rw [hsender, Party.peer_peer] at hnew
    exact absurd hpassed hnew
  · obtain ⟨e, ⟨hsealed, hstored⟩, hkept⟩ :=
      ha y s (mem_unopened.mpr ⟨hold, hsender, hunopened⟩) hpassed
    refine ⟨e, ⟨List.mem_cons_of_mem _ hsealed, hstored⟩, hkept.imp_left fun he => ?_⟩
    by_cases hy : y = sealing.sender
    · subst hy
      rw [session_recordSealing_self, hskipped]
      exact he
    · rw [session_recordSealing_of_ne _ _ _ hy]
      exact he

variable {sealed : SealedFrame α} {plaintext : Plaintext α} {key : Key α}

/-- Sealing a frame. -/
theorem Accounted.sealing {nonce : Nonce α} {s : Session α σ} {chain : Chain α}
    (h : Lockstep P sharedKey naming w) (ha : w.Accounted lost)
    (run : Session.Sealed P nonce plaintext (w.session x) sealed s chain) :
    (w.recordSealing s
      ⟨x, w.sendingChain x, some (kdfChain P chain.key).1, plaintext, sealed⟩).Accounted lost := by
  have hafter := run.after
  refine ha.recordSealing (by rw [hafter]) (by rw [hafter]) ?_
  have hnumber := h.number_sealed run
  have hsteps := (h.steps_le x.peer).1
  have hreceived := (h.synced x.peer).received_le
  rw [Party.peer_peer] at hsteps hreceived
  rintro (hlt | ⟨heq, hlt⟩)
  · exact Nat.not_le.mpr hlt hsteps
  · have heq' : w.sendingChain x = w.steps x.peer := heq
    have hlt' : (Header.parse sealed.frame).messageNumber.toNat < w.received x.peer := hlt
    rw [hnumber, heq'] at hlt'
    exact Nat.not_le.mpr hlt' hreceived

/-! ## Opening -/

/-- Opening a frame keeps the frames accounted for if it keeps those of the receiver. -/
theorem Accounted.delivery (ha : w.Accounted lost) (hmono : ∀ y e, lost y e → lost' y e)
    (d : Delivery naming w w' s' o t)
    (hself : ∀ s ∈ w.unopened o.receiver, w'.Passed o.receiver s → s ≠ t →
      ∃ e, w.StoredFor o.receiver e s ∧ (e ∈ s'.skipped ∨ lost' o.receiver e)) :
    w'.Accounted lost' := by
  intro y s hs hpassed
  obtain ⟨hmem, hsender, hunopened⟩ := mem_unopened.mp hs
  rw [d.sealings] at hmem
  by_cases hy : y = o.receiver
  · subst hy
    rw [d.openedBy_self, List.map_cons, List.mem_cons, not_or] at hunopened
    have hne : s ≠ t := by
      rintro rfl
      exact hunopened.1 d.origin.sealed_eq
    obtain ⟨e, ⟨hsealed, hstored⟩, hkept⟩ :=
      hself s (mem_unopened.mpr ⟨hmem, hsender, hunopened.2⟩) hpassed hne
    rw [d.session_self]
    exact ⟨e, ⟨d.sealings ▸ hsealed, hstored⟩, hkept⟩
  · rw [d.openedBy_other y hy] at hunopened
    obtain ⟨e, ⟨hsealed, hstored⟩, hkept⟩ := ha y s
      (mem_unopened.mpr ⟨hmem, hsender, hunopened⟩) (d.passed_other y s hy hpassed)
    rw [d.session_other y hy]
    exact ⟨e, ⟨d.sealings ▸ hsealed, hstored⟩, hkept.imp_right (hmono y e)⟩

section Opening

variable (h : Lockstep P sharedKey naming w) (distinct : naming.Distinct w)

include h distinct

/-- Opening a frame with a stored key. -/
theorem Accounted.skipped (ha : w.Accounted lost) {older newer : SkippedKeys α}
    {entry : SkippedKey α} (hstore : (w.session x).skipped = older ++ entry :: newer)
    (horigin : w.Origin naming ⟨x, some entry.key, plaintext, sealed⟩ t)
    (hpassed : w.Passed x t) (hfor : w.StoredFor x entry t) :
    (w.recordOpening { w.session x with skipped := older ++ newer }
      ⟨x, some entry.key, plaintext, sealed⟩).Accounted lost := by
  have a := h.advance_skipped hstore horigin hpassed hfor
  refine ha.delivery (fun _ _ => id) a.delivery fun s hs hp hne => ?_
  have hold : w.Passed x s := by
    rw [Passed, a.received_self] at hp
    exact hp
  obtain ⟨e, hstored, hkept⟩ := ha x s hs hold
  refine ⟨e, hstored, hkept.imp_left fun he => ?_⟩
  rw [hstore, List.mem_append, List.mem_cons] at he
  rcases he with hmem | rfl | hmem
  · exact List.mem_append_left _ hmem
  · exact absurd (hfor.name_eq naming).symm
      (hstored.name_ne distinct hfor.1 hfor.2.1 hne)
  · exact List.mem_append_right _ hmem

/-- Opening a frame ahead in the current receiving chain, when the keys that do not stay are
    lost. -/
theorem Accounted.current (ha : w.Accounted lost) (hmono : ∀ y e, lost y e → lost' y e)
    {start : Key α} (horigin : w.Origin naming ⟨x, some key, plaintext, sealed⟩ t)
    (hchain : t.chain = w.steps x)
    (hahead : Ahead P sharedKey w x t (Header.parse sealed.frame) (w.steps x) (w.received x)
      start)
    (hkept : ∀ e ∈ (w.session x).skipped ++ Session.overtaken P (Header.parse sealed.frame)
        (chainAt P start (w.received x)),
      e ∈ ((w.session x).advanceReceiving P (Header.parse sealed.frame)
        (chainAt P start (w.received x))).skipped ∨ lost' x e) :
    (w.recordOpening ((w.session x).advanceReceiving P (Header.parse sealed.frame)
      (chainAt P start (w.received x))) ⟨x, some key, plaintext, sealed⟩).Accounted lost' := by
  have a := h.advance_current distinct horigin hchain hahead
  refine ha.delivery hmono a.delivery fun s hs hp hne => ?_
  obtain ⟨hmem, hsender, -⟩ := mem_unopened.mp hs
  by_cases hold : w.Passed x s
  -- passed before: stored already, or lost
  · obtain ⟨e, hstored, he | hlost⟩ := ha x s hs hold
    · exact ⟨e, hstored, hkept e (List.mem_append_left _ he)⟩
    · exact ⟨e, hstored, .inr (hmono x e hlost)⟩
  · -- passed now, so `t` has overtaken it
    rw [Passed, a.received_self] at hp
    rw [Passed, not_or] at hold
    have hin : s.chain = w.steps x := (hp.resolve_left hold.1).1
    have hsent : s ∈ w.sentIn x.peer (w.steps x) := mem_sentIn.mpr ⟨hmem, hsender, hin⟩
    have hnumber : s.number ≠ t.number := fun heq => hne (h.number_inj hsent hahead.mem heq)
    have hle := (hp.resolve_left hold.1).2
    have hge : w.received x ≤ s.number := Nat.le_of_not_lt fun hlt => hold.2 ⟨hin, hlt⟩
    obtain ⟨e, he, hstored⟩ := hahead.exists_overtaken h hsent hge (by omega)
    exact ⟨e, hstored, hkept e (List.mem_append_right _ he)⟩

/-- Opening a frame with a ratchet step, when the keys that do not stay are lost. -/
theorem Accounted.step (ha : w.Accounted lost) (hmono : ∀ y e, lost y e → lost' y e) {own : σ}
    {middle root : SecretKey α} {receiving sending : Key α}
    (horigin : w.Origin naming ⟨x, some key, plaintext, sealed⟩ t)
    (hchain : t.chain = w.steps x + 1) (hnext : w.sendingChain x.peer = w.steps x + 1)
    (hahead : Ahead P sharedKey w x t (Header.parse sealed.frame) (w.steps x + 1) 0 receiving)
    (hmiddle : rootKeyOf P sharedKey w.ratchets = middle)
    (hsending : kdfRoot P middle own (Header.parse sealed.frame).ratchet = .ok (root, sending))
    (hkept : ∀ e ∈ (w.session x).skipped ++ ((w.session x).missing P (Header.parse sealed.frame) ++
        Session.overtaken P (Header.parse sealed.frame) (chainAt P receiving 0)),
      e ∈ (((w.session x).afterStep P (Header.parse sealed.frame) own root
        sending).advanceReceiving P (Header.parse sealed.frame) (chainAt P receiving 0)).skipped ∨
        lost' x e) :
    (w.recordStep
      (((w.session x).afterStep P (Header.parse sealed.frame) own root sending).advanceReceiving P
        (Header.parse sealed.frame) (chainAt P receiving 0))
      ⟨x, some key, plaintext, sealed⟩).Accounted lost' := by
  have d := h.stride_step distinct horigin hchain hnext hahead hmiddle hsending
  refine ha.delivery hmono d.delivery fun s hs hp hne => ?_
  obtain ⟨hmem, hsender, -⟩ := mem_unopened.mp hs
  by_cases hold : w.Passed x s
  -- passed before: stored already, or lost
  · obtain ⟨e, hstored, he | hlost⟩ := ha x s hs hold
    · exact ⟨e, hstored, hkept e (List.mem_append_left _ he)⟩
    · exact ⟨e, hstored, .inr (hmono x e hlost)⟩
  · have hnow : s.chain < w.steps x + 1 ∨ s.chain = w.steps x + 1 ∧ s.number < t.number + 1 := by
      have hsteps := steps_recordStep_self w (((w.session x).afterStep P (Header.parse sealed.frame)
        own root sending).advanceReceiving P (Header.parse sealed.frame) (chainAt P receiving 0))
        ⟨x, some key, plaintext, sealed⟩
      rw [Passed, d.received_self, hsteps] at hp
      exact hp
    rw [Passed, not_or] at hold
    rcases hnow with hclosedChain | ⟨hin, hle⟩
    · -- missing from the chain that is closed
      have hin : s.chain = w.steps x := by
        have hnotBefore := hold.1
        omega
      have hge : w.received x ≤ s.number := Nat.le_of_not_lt fun hlt => hold.2 ⟨hin, hlt⟩
      obtain ⟨e, he, hstored⟩ := h.exists_missing (h.previousChainLen_eq horigin hchain)
        (mem_sentIn.mpr ⟨hmem, hsender, hin⟩) hge
      exact ⟨e, hstored, hkept e (List.mem_append_right _ (List.mem_append_left _ he))⟩
    · -- overtaken in the chain that is opened
      have hsent : s ∈ w.sentIn x.peer (w.steps x + 1) := mem_sentIn.mpr ⟨hmem, hsender, hin⟩
      have hnumber : s.number ≠ t.number := fun heq => hne (h.number_inj hsent hahead.mem heq)
      obtain ⟨e, he, hstored⟩ := hahead.exists_overtaken h hsent (Nat.zero_le _) (by omega)
      exact ⟨e, hstored, hkept e (List.mem_append_right _ (List.mem_append_right _ he))⟩

end Opening

end World

end Quietwire
