/-
  Quietwire.Ratchet.Stocked

  While no more than 1 000 other frames are outstanding at each delivery, the
  store of skipped keys evicts nothing: it holds the key of every frame that the
  receiving chain has passed and that was not opened (`World.Stocked`).
-/
import Quietwire.Ratchet.Accounted

namespace Quietwire

variable {α σ : Type} [DecidableEq α] [Octet α] {P : Primitives α σ} {sharedKey : SecretKey α}
  {naming : Naming}

namespace World

/-- The store of each party holds the key of every frame that its receiving chain has
    passed and that it has not opened. -/
def Stocked (w : World α σ) : Prop :=
  ∀ x, ∀ s ∈ w.unopened x, w.Passed x s → ∃ e ∈ (w.session x).skipped, w.StoredFor x e s

variable {w w' : World α σ} {x : Party} {s' : Session α σ} {o : Opening α} {t : Sealing α}

/-- Complete stores have lost nothing. -/
theorem stocked_iff : w.Stocked ↔ w.Accounted fun _ _ => False := by
  simp only [Stocked, Accounted, or_false, and_comm]

variable {sealed : SealedFrame α} {plaintext : Plaintext α} {key : Key α}

/-- Sealing a frame. -/
theorem Stocked.sealing {nonce : Nonce α} {s : Session α σ} {chain : Chain α}
    (h : Lockstep P sharedKey naming w) (hst : w.Stocked)
    (run : Session.Sealed P nonce plaintext (w.session x) sealed s chain) :
    (w.recordSealing s
      ⟨x, w.sendingChain x, some (kdfChain P chain.key).1, plaintext, sealed⟩).Stocked := by
  rw [stocked_iff] at hst ⊢
  exact hst.sealing h run

section Opening

variable (h : Lockstep P sharedKey .byLabel w) (distinct : Naming.byLabel.Distinct w)

include h distinct

/-- The keys stored and overtaken belong to frames that are outstanding besides `t`. -/
theorem Lockstep.length_current_le {start : Key α}
    (horigin : w.Origin .byLabel ⟨x, some key, plaintext, sealed⟩ t) (hchain : t.chain = w.steps x)
    (hahead : Ahead P sharedKey w x t (Header.parse sealed.frame) (w.steps x) (w.received x)
      start) :
    (w.session x).skipped.length + (Session.overtaken P (Header.parse sealed.frame)
      (chainAt P start (w.received x))).length ≤ (w.others x t).length := by
  have hle := hahead.position_le
  have hnotPassed : ∀ u, u.chain = w.steps x → w.received x ≤ u.number → ¬ w.Passed x u :=
    fun _ hin hge => not_passed_of_le hin hge
  rw [← List.length_append]
  apply length_le_others
  · exact h.stored_append distinct (List.Sublist.refl _) (fun e he =>
      have ⟨s, hstored, hin, hge, _⟩ := hahead.storedFor_overtaken h he
      ⟨s, hstored, hnotPassed s hin hge⟩) (hahead.nodup_overtaken h distinct)
  · intro e he
    -- kept from before, and overtaken by `t`: both are of unopened frames other than `t`
    rcases List.mem_append.mp he with hold | hnew
    · obtain ⟨s, hstored, hp, hunopened⟩ := h.stored x e hold
      refine ⟨s, hstored, hunopened,
        hstored.name_ne distinct horigin.mem horigin.sender ?_⟩
      rintro rfl
      exact hnotPassed s hchain hle hp
    · obtain ⟨s, hstored, hin, hge, hlt⟩ := hahead.storedFor_overtaken h hnew
      refine ⟨s, hstored, h.entry_unopened distinct hstored (hnotPassed s hin hge),
        hstored.name_ne distinct horigin.mem horigin.sender ?_⟩
      rintro rfl
      exact Nat.lt_irrefl _ hlt

/-- The keys stored by a ratchet step belong to frames that are outstanding besides `t`. -/
theorem Lockstep.length_step_le {receiving : Key α}
    (horigin : w.Origin .byLabel ⟨x, some key, plaintext, sealed⟩ t)
    (hchain : t.chain = w.steps x + 1)
    (hahead : Ahead P sharedKey w x t (Header.parse sealed.frame) (w.steps x + 1) 0 receiving) :
    (w.session x).skipped.length + ((w.session x).missing P (Header.parse sealed.frame)).length +
      (Session.overtaken P (Header.parse sealed.frame) (chainAt P receiving 0)).length
        ≤ (w.others x t).length := by
  rw [Nat.add_assoc, ← List.length_append, ← List.length_append]
  apply length_le_others
  · exact h.stored_append distinct (List.Sublist.refl _) (fun e he =>
      have ⟨s, hstored, hnot, _⟩ := h.storedFor_added horigin hchain hahead he
      ⟨s, hstored, hnot⟩) (h.nodup_added distinct horigin hchain hahead)
  · intro e he
    rcases List.mem_append.mp he with hold | hnew
    · obtain ⟨s, hstored, hp, hunopened⟩ := h.stored x e hold
      refine ⟨s, hstored, hunopened,
        hstored.name_ne distinct horigin.mem horigin.sender ?_⟩
      rintro rfl
      rcases hp with hlt | ⟨heq, -⟩
      · omega
      · omega
    · obtain ⟨s, hstored, hnot, -, hst⟩ := h.storedFor_added horigin hchain hahead hnew
      exact ⟨s, hstored, h.entry_unopened distinct hstored hnot,
        hstored.name_ne distinct horigin.mem horigin.sender hst⟩

/-- Opening a frame while at most 1 000 others are outstanding evicts nothing. -/
theorem Accounted.budgeted {lost : Party → SkippedKey α → Prop} (ha : w.Accounted lost)
    {stepped : Bool}
    (hopened : Opened P sharedKey .byLabel w x sealed plaintext t key s' stepped)
    (hbudget : (w.others x t).length ≤ 1000) :
    (if stepped then w.recordStep s' ⟨x, some key, plaintext, sealed⟩
      else w.recordOpening s' ⟨x, some key, plaintext, sealed⟩).Accounted lost := by
  cases hopened with
  | skipped store origin passed stored => exact ha.skipped h distinct store origin passed stored
  | @current key start origin hchain ahead =>
    -- the budget leaves room in the store, so nothing is evicted
    have hlen := h.length_current_le distinct origin hchain ahead
    have hstore := Session.advanceReceiving_of_length_le P (w.session x)
      (Header.parse sealed.frame) (chainAt P start (w.received x)) (Nat.le_trans hlen hbudget)
    refine ha.current h distinct (fun _ _ => id) origin hchain ahead fun e he => .inl ?_
    rw [hstore]
    exact he
  | @step key receiving sending own root origin hchain hnext ahead sendingKeys =>
    -- likewise for both writes of a step
    have hlen := h.length_step_le distinct origin hchain ahead
    have hclosed := Session.closePrevious_of_length_le P (w.session x) (Header.parse sealed.frame)
      (by omega)
    have hstore := Session.advanceReceiving_of_length_le P
      ((w.session x).afterStep P (Header.parse sealed.frame) own root sending)
      (Header.parse sealed.frame) (chainAt P receiving 0) (by
        show ((w.session x).closePrevious P _).length + _ ≤ _
        rw [hclosed, List.length_append]
        omega)
    refine ha.step h distinct (fun _ _ => id) origin hchain hnext ahead rfl sendingKeys
      fun e he => .inl ?_
    rw [hstore]
    show e ∈ (w.session x).closePrevious P _ ++ _
    rw [hclosed, List.append_assoc]
    exact he

/-- Such an opening keeps the stores complete. -/
theorem Stocked.budgeted (hst : w.Stocked) {stepped : Bool}
    (hopened : Opened P sharedKey .byLabel w x sealed plaintext t key s' stepped)
    (hbudget : (w.others x t).length ≤ 1000) :
    (if stepped then w.recordStep s' ⟨x, some key, plaintext, sealed⟩
      else w.recordOpening s' ⟨x, some key, plaintext, sealed⟩).Stocked := by
  rw [stocked_iff] at hst ⊢
  exact hst.budgeted h distinct hopened hbudget

end Opening

end World

end Quietwire
