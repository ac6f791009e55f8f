/-
  Quietwire.Ratchet.StoreOrder

  The order of the store of skipped keys: its entries stand in the order in which the
  peer sealed their frames, chain by chain.  So the store is told by the entries it
  holds, and eviction, which takes the oldest first, by them too.
-/
import Quietwire.Ratchet.Reachable

namespace Quietwire

variable {α σ : Type} [DecidableEq α] [Octet α] {P : Primitives α σ} {sharedKey : SecretKey α}
  {naming : Naming}

omit [DecidableEq α] in
/-- The frame `s` is before `t`, in an earlier chain or before it in the same one. -/
def Sealing.Before (s t : Sealing α) : Prop :=
  s.chain < t.chain ∨ s.chain = t.chain ∧ s.number < t.number

omit [DecidableEq α] in
theorem Sealing.Before.asymm {s t : Sealing α} (h : s.Before t) : ¬ t.Before s := by
  rintro (hlt | ⟨heq, hlt⟩)
  · rcases h with h | ⟨h, -⟩
    · omega
    · omega
  · rcases h with h | ⟨-, h⟩
    · omega
    · omega

namespace World

omit [DecidableEq α] in
/-- The entry `e` is for a frame before that of `f`. -/
def StoredBefore (w : World α σ) (x : Party) (e f : SkippedKey α) : Prop :=
  ∃ s t, w.StoredFor x e s ∧ w.StoredFor x f t ∧ s.Before t

/-- The entries of each store stand in the order of their frames. -/
def StoreOrdered (w : World α σ) : Prop :=
  ∀ x, (w.session x).skipped.Pairwise (w.StoredBefore x)

variable {w w' : World α σ} {x : Party}

omit [DecidableEq α] in
theorem StoredFor.mono {e : SkippedKey α} {s : Sealing α} (h : w.StoredFor x e s)
    (hsealings : w.sealings ⊆ w'.sealings) : w'.StoredFor x e s :=
  ⟨hsealings h.1, h.2⟩

omit [DecidableEq α] in
theorem StoredBefore.mono {e f : SkippedKey α} (h : w.StoredBefore x e f)
    (hsealings : w.sealings ⊆ w'.sealings) : w'.StoredBefore x e f := by
  obtain ⟨s, t, hs, ht, hbefore⟩ := h
  exact ⟨s, t, hs.mono hsealings, ht.mono hsealings, hbefore⟩

omit [DecidableEq α] in
/-- A call of one party that leaves its store in order. -/
theorem StoreOrdered.update {s' : Session α σ} (ho : w.StoreOrdered)
    (hordered : s'.skipped.Pairwise (w.StoredBefore x)) (hsealings : w.sealings ⊆ w'.sealings)
    (hself : w'.session x = s') (hother : ∀ y, y ≠ x → w'.session y = w.session y) :
    w'.StoreOrdered := by
  intro y
  by_cases hy : y = x
  · subst hy
    rw [hself]
    exact hordered.imp fun hbefore => hbefore.mono hsealings
  · rw [hother y hy]
    exact (ho y).imp fun hbefore => hbefore.mono hsealings

/-! ## Insertions -/

omit [DecidableEq α] in
/-- Entries of one chain with increasing numbers stand in order. -/
theorem pairwise_storedBefore (chain : Nat) {entries : SkippedKeys α}
    (hnumbers : (entries.map SkippedKey.number).Pairwise (· < ·))
    (hentries : ∀ e ∈ entries, ∃ s, w.StoredFor x e s ∧ s.chain = chain) :
    entries.Pairwise (w.StoredBefore x) := by
  rw [List.pairwise_map] at hnumbers
  refine hnumbers.imp_of_mem fun {e f} he hf hlt => ?_
  obtain ⟨s, hs, hsChain⟩ := hentries e he
  obtain ⟨t, ht, htChain⟩ := hentries f hf
  refine ⟨s, t, hs, ht, .inr ⟨hsChain.trans htChain.symm, ?_⟩⟩
  rw [Sealing.number, Sealing.number, hs.2.2.2.2, ht.2.2.2.2]
  exact UInt32.lt_iff_toNat_lt.mp hlt

section Insertions

variable (h : Lockstep P sharedKey naming w) {t : Sealing α} {header : Header α}

include h

omit [DecidableEq α] in
/-- The keys that a frame overtakes stand in order. -/
theorem Ahead.pairwise_overtaken {chain position : Nat} {start : Key α}
    (ha : Ahead P sharedKey w x t header chain position start) :
    (Session.overtaken P header (chainAt P start position)).Pairwise (w.StoredBefore x) := by
  have hlimit := (h.genuine t (mem_sentIn.mp ha.mem).1).belowLimit
  have hle := ha.position_le
  refine pairwise_storedBefore chain ?_ fun e he => ?_
  · rw [ha.overtaken_eq h]
    exact pairwise_numbers P _ _ (by omega)
  · obtain ⟨s, hstored, hin, -⟩ := ha.storedFor_overtaken h he
    exact ⟨s, hstored, hin⟩

omit [DecidableEq α] in
/-- So do those that a ratchet step moves from the old receiving chain. -/
theorem Lockstep.pairwise_missing
    (hprevious : header.previousChainLen.toNat = (w.sentIn x.peer (w.steps x)).length) :
    ((w.session x).missing P header).Pairwise (w.StoredBefore x) := by
  have hlen := h.length_sentIn_le x.peer (w.steps x)
  have hle := (h.synced x).received_le
  refine pairwise_storedBefore (w.steps x) ?_ fun e he => ?_
  · rcases h.missing_eq with ⟨hnil, -⟩ | ⟨start, ratchet, -, -, hmissing⟩
    · rw [hnil]
      exact List.Pairwise.nil
    · rw [hmissing]
      exact pairwise_numbers P _ _ (by omega)
  · obtain ⟨s, hstored, hin, -⟩ := h.storedFor_missing hprevious he
    exact ⟨s, hstored, hin⟩

omit [DecidableEq α] in
/-- What is stored behind a store in order is for frames that were not passed before. -/
theorem StoreOrdered.append (ho : w.StoreOrdered) {added : SkippedKeys α}
    (hadded : added.Pairwise (w.StoredBefore x))
    (hnot : ∀ e ∈ added, ∃ s, w.StoredFor x e s ∧ ¬ w.Passed x s) :
    ((w.session x).skipped ++ added).Pairwise (w.StoredBefore x) := by
  rw [List.pairwise_append]
  refine ⟨ho x, hadded, fun e he f hf => ?_⟩
  obtain ⟨s, hs, hpassed, -⟩ := h.stored x e he
  obtain ⟨u, hu, hnot⟩ := hnot f hf
  refine ⟨s, u, hs, hu, ?_⟩
  rw [Passed, not_or] at hnot
  have hge : w.steps x ≤ u.chain := Nat.le_of_not_lt hnot.1
  rcases hpassed with hlt | ⟨hcurrent, hlt⟩
  · exact .inl (by omega)
  · rcases Nat.lt_or_eq_of_le hge with hnext | hsame
    · exact .inl (by omega)
    · have hnumber : w.received x ≤ u.number :=
        Nat.le_of_not_lt fun hbelow => hnot.2 ⟨hsame.symm, hbelow⟩
      exact .inr ⟨by omega, by omega⟩

end Insertions

/-! ## Runs -/

/-- What opening a frame may add to the store: entries in order, for frames that were not
    passed before. -/
theorem Opened.exists_added {sealed : SealedFrame α} {plaintext : Plaintext α} {key : Key α}
    {t : Sealing α} {s' : Session α σ} {stepped : Bool} (h : Lockstep P sharedKey naming w)
    (hopened : Opened P sharedKey naming w x sealed plaintext t key s' stepped) :
    ∃ added, s'.skipped.Sublist ((w.session x).skipped ++ added) ∧
      added.Pairwise (w.StoredBefore x) ∧
      ∀ e ∈ added, ∃ s, w.StoredFor x e s ∧ ¬ w.Passed x s := by
  cases hopened with
  | @skipped older newer entry store origin passed stored =>
    -- a key that is used leaves the store
    refine ⟨[], ?_, List.Pairwise.nil, by simp⟩
    rw [List.append_nil, store]
    exact (List.sublist_cons_self entry newer).append_left older
  | current origin chain ahead =>
    refine ⟨_, Session.advanceReceiving_sublist P _ _ _, ahead.pairwise_overtaken h,
      fun e he => ?_⟩
    obtain ⟨s, hstored, hin, hge, -⟩ := ahead.storedFor_overtaken h he
    exact ⟨s, hstored, not_passed_of_le hin hge⟩
  | step origin chain next ahead sendingKeys =>
    refine ⟨_, Session.afterStep_sublist P _ _ _ _ _ _, ?_, fun e he => ?_⟩
    · -- the closed chain stands before the one that is opened
      have hprevious := h.previousChainLen_eq origin chain
      refine List.pairwise_append.mpr ⟨h.pairwise_missing hprevious, ahead.pairwise_overtaken h,
        fun e he f hf => ?_⟩
      obtain ⟨s, hs, hsChain, -⟩ := h.storedFor_missing hprevious he
      obtain ⟨u, hu, huChain, -⟩ := ahead.storedFor_overtaken h hf
      exact ⟨s, u, hs, hu, .inl (by omega)⟩
    · obtain ⟨s, hstored, hnot, -⟩ := h.storedFor_added origin chain ahead he
      exact ⟨s, hstored, hnot⟩

/-- Opening a frame keeps the store in order. -/
theorem StoreOrdered.opening {sealed : SealedFrame α} {plaintext : Plaintext α} {key : Key α}
    {t : Sealing α} {s' : Session α σ} {stepped : Bool} (ho : w.StoreOrdered)
    (h : Lockstep P sharedKey naming w)
    (hopened : Opened P sharedKey naming w x sealed plaintext t key s' stepped) :
    s'.skipped.Pairwise (w.StoredBefore x) := by
  obtain ⟨added, hsublist, hpairwise, hnot⟩ := hopened.exists_added h
  exact (ho.append h hpairwise hnot).sublist hsublist

/-- A call that opens no frame but an unopened one keeps the stores in order. -/
theorem StoreOrdered.call (ho : w.StoreOrdered) (h : Lockstep P sharedKey naming w)
    (event : Event α σ) (htraced : w.Traced P sharedKey naming event) :
    (w.step P event).1.StoreOrdered := by
  cases hw : w.step P event with
  | mk w' output =>
    have htransition := w.step_transition (P := P) event
    rw [hw] at htransition
    cases htransition with
    | refusedSealing => exact ho
    | refusedOpening => exact ho
    | @sealed sender _ _ _ s chain run =>
      have hstore : s.skipped.Pairwise (w.StoredBefore sender) := by
        rw [run.after]
        exact ho sender
      exact ho.update hstore (List.subset_cons_self _ _) (session_recordSealing_self _ _ _)
        fun y hy => session_recordSealing_of_ne _ _ _ hy
    | opened run stays =>
      obtain ⟨t, hopened⟩ := htraced _ _ _ run
      exact ho.update (ho.opening h hopened) (List.Subset.refl _)
        (session_recordOpening_self _ _ _) fun y hy => session_recordOpening_of_ne _ _ _ hy
    | stepped run steps =>
      obtain ⟨t, hopened⟩ := htraced _ _ _ run
      exact ho.update (ho.opening h hopened) (List.Subset.refl _)
        (session_recordStep_self _ _ _) fun y hy => session_recordStep_of_ne _ _ _ hy

/-- In every state that a conversation reaches, the stores are in order. -/
theorem StoreOrdered.reaches {w₀ : World α σ} (free : FreeKdf P)
    (fresh : FreshSharedKey P sharedKey) {signedPrekey ownRatchet : σ}
    (hstart : World.start P sharedKey signedPrekey ownRatchet = .ok w₀)
    (hreaches : World.Reaches P w₀ w) : w.StoreOrdered := by
  induction hreaches with
  | refl =>
    obtain ⟨-, rfl⟩ := World.start_eq_ok_iff.mp hstart
    intro y
    cases y <;> exact List.Pairwise.nil
  | tail hbefore hunforged ih =>
    have h := (Lockstep.start hstart).reaches free fresh hbefore
    exact ih.call h _ (h.traced free fresh _ hunforged)

end World

end Quietwire
