/-
  Quietwire.Ratchet.LockstepOpening

  Opening a frame without a ratchet step, with a stored key or ahead in the
  current receiving chain, keeps the sessions in lockstep.
-/
import Quietwire.Ratchet.LockstepSealing
import Quietwire.Ratchet.Origin

namespace Quietwire

variable {α σ : Type} [Octet α] {P : Primitives α σ} {sharedKey : SecretKey α}
  {naming : Naming}

namespace World

variable {w w' : World α σ} {s' : Session α σ} {o : Opening α} {t : Sealing α}

/-! ## The books of a delivery -/

/-- What opening a frame does to the frames opened and the keys stored: one frame more is
    open, and the receiver's store holds keys of frames it has passed and not opened. -/
structure Delivery (naming : Naming) (w w' : World α σ) (s' : Session α σ) (o : Opening α)
    (t : Sealing α) : Prop where
  origin : w.Origin naming o t
  session_self : w'.session o.receiver = s'
  session_other : ∀ y, y ≠ o.receiver → w'.session y = w.session y
  sealings : w'.sealings = w.sealings
  openedBy_self : w'.openedBy o.receiver = o :: w.openedBy o.receiver
  openedBy_other : ∀ y, y ≠ o.receiver → w'.openedBy y = w.openedBy y
  passed_mono : ∀ y u, w.Passed y u → w'.Passed y u
  passed_other : ∀ y u, y ≠ o.receiver → w'.Passed y u → w.Passed y u
  passed : w'.Passed o.receiver t
  stored : ∀ e ∈ s'.skipped, ∃ s, w.StoredFor o.receiver e s ∧ w'.Passed o.receiver s ∧
    naming.ofEntry e ∉ w.openedNames naming o.receiver ∧
    naming.ofEntry e ≠ naming.ofSealing t
  storedOnce : (s'.skipped.map naming.ofEntry).Nodup

namespace Delivery

variable (d : Delivery naming w w' s' o t) (h : Lockstep P sharedKey naming w)

include d

theorem openedNames_self : w'.openedNames naming o.receiver
    = naming.ofSealing t :: w.openedNames naming o.receiver := by
  rw [openedNames, d.openedBy_self, List.map_cons, ← d.origin.name_eq, openedNames]

theorem openedNames_other {y : Party} (hy : y ≠ o.receiver) :
    w'.openedNames naming y = w.openedNames naming y := by
  rw [openedNames, d.openedBy_other y hy, openedNames]

include h

theorem opened (y : Party) : ∀ o' ∈ w'.openedBy y, ∃ s ∈ w'.sealings, s.sender = y.peer ∧
    s.key = o'.key ∧ s.sealed = o'.sealed ∧ s.plaintext = o'.plaintext ∧ w'.Passed y s := by
  intro o' ho'
  have hold : o' ∈ w.openedBy y → ∃ s ∈ w'.sealings, s.sender = y.peer ∧ s.key = o'.key ∧
      s.sealed = o'.sealed ∧ s.plaintext = o'.plaintext ∧ w'.Passed y s := by
    intro hmem
    obtain ⟨u, hu, hsender, hkey, hsealed, hplaintext, hp⟩ := h.opened y o' hmem
    exact ⟨u, d.sealings ▸ hu, hsender, hkey, hsealed, hplaintext, d.passed_mono y u hp⟩
  by_cases hy : y = o.receiver
  · subst hy
    rw [d.openedBy_self] at ho'
    rcases List.mem_cons.mp ho' with rfl | hmem
    · exact ⟨t, d.sealings ▸ d.origin.mem, d.origin.sender, d.origin.key_eq, d.origin.sealed_eq,
        d.origin.plaintext_eq, d.passed⟩
    · exact hold hmem
  · rw [d.openedBy_other y hy] at ho'
    exact hold ho'

theorem openedOnce (y : Party) : (w'.openedNames naming y).Nodup := by
  by_cases hy : y = o.receiver
  · subst hy
    rw [d.openedNames_self]
    exact List.nodup_cons.mpr ⟨d.origin.unopened, h.openedOnce _⟩
  · rw [d.openedNames_other hy]
    exact h.openedOnce y

theorem stored' (y : Party) : ∀ e ∈ (w'.session y).skipped, ∃ s, w'.StoredFor y e s ∧
    w'.Passed y s ∧ naming.ofEntry e ∉ w'.openedNames naming y := by
  intro e he
  by_cases hy : y = o.receiver
  · subst hy
    rw [d.session_self] at he
    obtain ⟨s, ⟨hs, hstored⟩, hp, hunopened, hne⟩ := d.stored e he
    refine ⟨s, ⟨d.sealings ▸ hs, hstored⟩, hp, ?_⟩
    rw [d.openedNames_self, List.mem_cons, not_or]
    exact ⟨hne, hunopened⟩
  · rw [d.session_other y hy] at he
    obtain ⟨s, ⟨hs, hstored⟩, hp, hunopened⟩ := h.stored y e he
    refine ⟨s, ⟨d.sealings ▸ hs, hstored⟩, d.passed_mono y s hp, ?_⟩
    rw [d.openedNames_other hy]
    exact hunopened

theorem storedOnce' (y : Party) : ((w'.session y).skipped.map naming.ofEntry).Nodup := by
  by_cases hy : y = o.receiver
  · subst hy
    rw [d.session_self]
    exact d.storedOnce
  · rw [d.session_other y hy]
    exact h.storedOnce y

end Delivery

/-! ## Opening without a ratchet step -/

/-- What opening a frame of `x`'s peer without a ratchet step may change: the position in
    the receiving chain, forward, and the store. -/
structure Advance (P : Primitives α σ) (sharedKey : SecretKey α) (naming : Naming)
    (w : World α σ) (s' : Session α σ) (o : Opening α) (t : Sealing α) (position : Nat) :
    Prop where
  origin : w.Origin naming o t
  same : s' = { w.session o.receiver with receiving := s'.receiving, skipped := s'.skipped }
  receiving : s'.receiving
    = (startKeyOf P sharedKey (w.eraOf o.receiver.peer (w.steps o.receiver))).map fun start =>
        chainAt P start position
  position_eq : (s'.receiving.map fun chain => chain.next.toNat).getD 0 = position
  position_ge : w.received o.receiver ≤ position
  position_le : position ≤ (w.sentIn o.receiver.peer (w.steps o.receiver)).length
  passed : t.chain < w.steps o.receiver ∨ t.chain = w.steps o.receiver ∧ t.number < position
  stored : ∀ e ∈ s'.skipped, ∃ s, w.StoredFor o.receiver e s ∧
    (s.chain < w.steps o.receiver ∨ s.chain = w.steps o.receiver ∧ s.number < position) ∧
    naming.ofEntry e ∉ w.openedNames naming o.receiver ∧
    naming.ofEntry e ≠ naming.ofSealing t
  storedOnce : (s'.skipped.map naming.ofEntry).Nodup

namespace Advance

variable {position : Nat} (a : Advance P sharedKey naming w s' o t position)

include a

theorem received_self : (w.recordOpening s' o).received o.receiver = position := by
  rw [received, session_recordOpening_self]
  exact a.position_eq

omit a [Octet α] in
theorem received_other {y : Party} (hy : y ≠ o.receiver) :
    (w.recordOpening s' o).received y = w.received y := by
  rw [received, session_recordOpening_of_ne _ _ _ hy, received]

theorem passed_self {u : Sealing α}
    (hu : u.chain < w.steps o.receiver ∨ u.chain = w.steps o.receiver ∧ u.number < position) :
    (w.recordOpening s' o).Passed o.receiver u := by
  rw [Passed, a.received_self, steps_recordOpening]
  exact hu

theorem delivery : Delivery naming w (w.recordOpening s' o) s' o t where
  origin := a.origin
  session_self := session_recordOpening_self _ _ _
  session_other _ hy := session_recordOpening_of_ne _ _ _ hy
  sealings := rfl
  openedBy_self := openedBy_recordOpening_self _ _ _
  openedBy_other _ hy := openedBy_recordOpening_of_ne _ _ _ hy.symm
  passed_mono y u hu := by
    by_cases hy : y = o.receiver
    · subst hy
      have hge := a.position_ge
      exact a.passed_self (hu.imp_right fun ⟨heq, hlt⟩ => ⟨heq, by omega⟩)
    · rw [Passed, received_other hy, steps_recordOpening]
      exact hu
  passed_other y u hy hu := by
    rw [Passed, received_other hy, steps_recordOpening] at hu
    exact hu
  passed := a.passed_self a.passed
  stored e he := by
    obtain ⟨s, hstored, hp, hunopened⟩ := a.stored e he
    exact ⟨s, hstored, a.passed_self hp, hunopened⟩
  storedOnce := a.storedOnce

end Advance

/-- Opening a frame without a ratchet step keeps the sessions in lockstep. -/
theorem Lockstep.recordOpening (h : Lockstep P sharedKey naming w) {position : Nat}
    (a : Advance P sharedKey naming w s' o t position) :
    Lockstep P sharedKey naming (w.recordOpening s' o) := by
  constructor
  case turn => exact h.turn
  case drawn => exact h.drawn
  case contributory => exact h.contributory
  case synced =>
    intro y
    have hy := h.synced y
    by_cases hyx : y = o.receiver
    · subst hyx
      have hsame := a.same
      -- the counters and chain keys of the receiver stay, but for the receiving chain
      constructor
      case era =>
        rw [sendingChain_recordOpening, session_recordOpening_self, hsame]
        exact hy.era
      case rootKey =>
        rw [sendingChain_recordOpening, session_recordOpening_self, hsame]
        exact hy.rootKey
      case remote =>
        rw [session_recordOpening_self, hsame]
        exact hy.remote
      case chainStart =>
        rw [sendingChain_recordOpening]
        exact hy.chainStart
      case sending =>
        rw [sendingChain_recordOpening, session_recordOpening_self, hsame]
        exact hy.sending
      case receiving =>
        rw [a.received_self, session_recordOpening_self]
        exact a.receiving
      case received_le =>
        rw [a.received_self]
        exact a.position_le
      case previous =>
        rw [sendingChain_recordOpening, session_recordOpening_self, hsame]
        exact hy.previous
    -- the other party does not move
    · exact hy.mono (session_recordOpening_of_ne _ _ _ hyx) rfl (sendingChain_recordOpening _ _ _ _)
        rfl rfl rfl (fun _ => rfl) (Nat.le_refl _)
  case genuine =>
    intro s hs
    exact (h.genuine s hs).mono (Nat.le_of_eq (sendingChain_recordOpening _ _ _ _).symm) rfl rfl
  case numbered => exact h.numbered
  case opened => exact a.delivery.opened h
  case openedOnce => exact a.delivery.openedOnce h
  case stored => exact a.delivery.stored' h
  case storedOnce => exact a.delivery.storedOnce' h

/-! ## The two ways of opening without a step -/

variable {x : Party} {sealed : SealedFrame α} {plaintext : Plaintext α} {key : Key α}

/-- Opening a frame with a stored key. -/
theorem Lockstep.advance_skipped (h : Lockstep P sharedKey naming w) {older newer : SkippedKeys α}
    {entry : SkippedKey α} (hstore : (w.session x).skipped = older ++ entry :: newer)
    (horigin : w.Origin naming ⟨x, some entry.key, plaintext, sealed⟩ t) (hpassed : w.Passed x t)
    (hfor : w.StoredFor x entry t) :
    Advance P sharedKey naming w { w.session x with skipped := older ++ newer }
      ⟨x, some entry.key, plaintext, sealed⟩ t (w.received x) := by
  -- a name is stored once, so none of the entries that remain is the one used
  have hnodup := h.storedOnce x
  rw [hstore, List.map_append, List.map_cons, List.nodup_middle, ← List.map_append,
    List.nodup_cons] at hnodup
  constructor
  case origin => exact horigin
  case same => rfl
  case receiving => exact (h.synced x).receiving
  case position_eq => rfl
  case position_ge => exact Nat.le_refl _
  case position_le => exact (h.synced x).received_le
  case passed => exact hpassed
  case stored =>
    intro e he
    have he' : e ∈ (w.session x).skipped := by
      rw [hstore]
      exact (List.Sublist.append_left (List.sublist_cons_self _ _) _).subset he
    obtain ⟨s, hstored, hp, hunopened⟩ := h.stored x e he'
    refine ⟨s, hstored, hp, hunopened, fun heq => hnodup.1 ?_⟩
    rw [← hfor.name_eq naming, ← heq]
    exact List.mem_map_of_mem he
  case storedOnce => exact hnodup.2

variable [DecidableEq α]

/-- Opening a frame ahead in the current receiving chain. -/
theorem Lockstep.advance_current (h : Lockstep P sharedKey naming w)
    (distinct : naming.Distinct w) {start : Key α}
    (horigin : w.Origin naming ⟨x, some key, plaintext, sealed⟩ t) (hchain : t.chain = w.steps x)
    (hahead : Ahead P sharedKey w x t (Header.parse sealed.frame) (w.steps x) (w.received x)
      start) :
    Advance P sharedKey naming w
      ((w.session x).advanceReceiving P (Header.parse sealed.frame)
        (chainAt P start (w.received x)))
      ⟨x, some key, plaintext, sealed⟩ t (t.number + 1) := by
  have hlimit := (h.genuine t horigin.mem).belowLimit
  have hreceiving := hahead.receiving_eq h (w.session x)
  have hnotPassed : ∀ u, u.chain = w.steps x → w.received x ≤ u.number → ¬ w.Passed x u :=
    fun _ hin hge => not_passed_of_le hin hge
  have hne : ∀ e s, w.StoredFor x e s → s ≠ t → naming.ofEntry e ≠ naming.ofSealing t :=
    fun e s hstored hst => hstored.name_ne distinct horigin.mem horigin.sender hst
  have hsublist := Session.advanceReceiving_sublist P (w.session x) (Header.parse sealed.frame)
    (chainAt P start (w.received x))
  constructor
  case origin => exact horigin
  case same => rfl
  case receiving =>
    rw [hreceiving, hahead.start_eq, Option.map_some]
  case position_eq =>
    rw [hreceiving]
    exact toNat_ofNat_of_le (by omega)
  case position_ge => exact Nat.le_succ_of_le hahead.position_le
  case position_le => exact h.number_lt hahead.mem
  case passed => exact .inr ⟨hchain, Nat.lt_succ_self _⟩
  case stored =>
    intro e he
    rcases List.mem_append.mp (hsublist.subset he) with hold | hnew
    -- kept from before
    · obtain ⟨s, hstored, hp, hunopened⟩ := h.stored x e hold
      have hle := hahead.position_le
      have hst : s ≠ t := by
        rintro rfl
        exact hnotPassed s hchain hle hp
      exact ⟨s, hstored, hp.imp_right fun ⟨heq, hlt⟩ => ⟨heq, by omega⟩, hunopened,
        hne e s hstored hst⟩
    -- overtaken by `t`, so stored now
    · obtain ⟨s, hstored, hin, hge, hlt⟩ := hahead.storedFor_overtaken h hnew
      have hst : s ≠ t := by
        rintro rfl
        exact Nat.lt_irrefl _ hlt
      exact ⟨s, hstored, .inr ⟨hin, Nat.lt_succ_of_lt hlt⟩,
        h.entry_unopened distinct hstored (hnotPassed s hin hge),
        hne e s hstored hst⟩
  case storedOnce =>
    exact h.stored_append distinct hsublist (fun e he =>
      have ⟨s, hstored, hin, hge, _⟩ := hahead.storedFor_overtaken h he
      ⟨s, hstored, hnotPassed s hin hge⟩) (hahead.nodup_overtaken h distinct)

end World

end Quietwire
