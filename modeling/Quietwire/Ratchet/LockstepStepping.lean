/-
  Quietwire.Ratchet.LockstepStepping

  A ratchet step keeps the sessions in lockstep, and so does every call:
  `World.Lockstep` holds in every state that a conversation reaches.
-/
import Quietwire.Ratchet.LockstepOpening

namespace Quietwire

variable {α σ : Type} [DecidableEq α] [Octet α] {P : Primitives α σ} {sharedKey : SecretKey α}
  {naming : Naming}

namespace World

variable {w : World α σ} {x : Party} {sealed : SealedFrame α} {plaintext : Plaintext α}
  {key : Key α} {t : Sealing α}

omit [DecidableEq α] in
/-- The keys that a ratchet step moves from the old receiving chain to the store. -/
theorem Lockstep.missing_eq (h : Lockstep P sharedKey naming w) {header : Header α} :
    (w.session x).missing P header = [] ∧
      startKeyOf P sharedKey (w.eraOf x.peer (w.steps x)) = none ∨
    ∃ start ratchet, startKeyOf P sharedKey (w.eraOf x.peer (w.steps x)) = some start ∧
      (w.eraOf x.peer (w.steps x)).head?.map (publicKey P) = some ratchet ∧
      (w.session x).missing P header = SkippedKeys.entries ratchet
        (messageKeysFrom P (chainKeyAt P start (w.received x)) (w.received x)
          (header.previousChainLen.toNat - w.received x)) := by
  have hremote := (h.synced x).remote
  unfold Session.missing
  cases hreceiving : (w.session x).receiving with
  | none =>
    have hnone := (h.synced x).receiving
    rw [hreceiving, eq_comm, Option.map_eq_none_iff] at hnone
    exact .inl ⟨rfl, hnone⟩
  | some chain =>
    obtain ⟨start, hstart, rfl, hnext⟩ := h.receiving_eq hreceiving
    rcases era_cases (w.eraOf x.peer (w.steps x)) with hshort | ⟨own, second, rest, hera⟩
    · rw [startKeyOf_of_length_le P _ hshort] at hstart
      cases hstart
    · rw [hera, List.head?_cons, Option.map_some] at hremote
      refine .inr ⟨start, publicKey P own, hstart, by rw [hera]; rfl, ?_⟩
      simp only [hremote, hnext]
      rfl

omit [DecidableEq α] in
/-- They are those of the frames that the chain had not reached. -/
theorem Lockstep.storedFor_missing (h : Lockstep P sharedKey naming w) {header : Header α}
    (hprevious : header.previousChainLen.toNat = (w.sentIn x.peer (w.steps x)).length)
    {e : SkippedKey α} (he : e ∈ (w.session x).missing P header) :
    ∃ s, w.StoredFor x e s ∧ s.chain = w.steps x ∧ w.received x ≤ s.number := by
  rcases h.missing_eq with ⟨hnil, -⟩ | ⟨start, ratchet, hstart, hratchet, hmissing⟩
  · rw [hnil] at he
    cases he
  · rw [hmissing] at he
    have hle := (h.synced x).received_le
    obtain ⟨s, hstored, hin, hge, -⟩ :=
      h.storedFor_messageKeysFrom hstart hratchet (by omega) he
    exact ⟨s, hstored, hin, hge⟩

omit [DecidableEq α] in
/-- The key of each frame that the chain had not reached is among them. -/
theorem Lockstep.exists_missing (h : Lockstep P sharedKey naming w) {header : Header α}
    (hprevious : header.previousChainLen.toNat = (w.sentIn x.peer (w.steps x)).length)
    {s : Sealing α} (hs : s ∈ w.sentIn x.peer (w.steps x)) (hge : w.received x ≤ s.number) :
    ∃ e ∈ (w.session x).missing P header, w.StoredFor x e s := by
  obtain ⟨hmem, hsender, hin⟩ := mem_sentIn.mp hs
  rcases h.missing_eq with ⟨-, hnone⟩ | ⟨start, ratchet, hstart, hratchet, hmissing⟩
  · obtain ⟨key, hkey, -⟩ := (h.genuine s hmem).sealing
    have hgenuine := (h.genuine s hmem).key
    rw [hkey, hsender, hin, messageKeyOf, hnone] at hgenuine
    cases hgenuine
  · rw [hmissing]
    have hbelow := h.number_lt hs
    exact h.exists_entry hstart hratchet hs hge (by omega)

omit [DecidableEq α] in
theorem Lockstep.nodup_missing (h : Lockstep P sharedKey naming w)
    (distinct : naming.Distinct w) {header : Header α}
    (hprevious : header.previousChainLen.toNat = (w.sentIn x.peer (w.steps x)).length) :
    (((w.session x).missing P header).map naming.ofEntry).Nodup := by
  refine nodup_names distinct ?_ fun e he =>
    have ⟨s, hstored, _⟩ := h.storedFor_missing hprevious he
    ⟨s, hstored⟩
  have hlen := h.length_sentIn_le x.peer (w.steps x)
  have hle := (h.synced x).received_le
  rcases h.missing_eq with ⟨hnil, -⟩ | ⟨start, ratchet, -, -, hmissing⟩
  · rw [hnil]
    exact List.nodup_nil
  · rw [hmissing]
    exact nodup_numbers P _ _ (by omega)

section Eras

variable (h : Lockstep P sharedKey naming w) (s' : Session α σ) {o : Opening α}

include h

omit [DecidableEq α] in
/-- A new ratchet key leaves the eras before it as they were. -/
theorem Lockstep.eraOf_recordStep {y : Party} {chain : Nat} (hchain : chain ≤ w.sendingChain y) :
    (w.recordStep s' o).eraOf y chain = w.eraOf y chain :=
  rtake_cons_of_le _ _ _ (h.eraLen_le hchain)

omit [DecidableEq α] in
/-- The era of a party that steps is everything drawn so far. -/
theorem Lockstep.eraOf_recordStep_self
    (hahead : w.sendingChain o.receiver.peer = w.steps o.receiver + 1) :
    (w.recordStep s' o).eraOf o.receiver (w.sendingChain o.receiver + 1)
      = s'.ownRatchet :: w.ratchets := by
  apply rtake_of_length_le
  have hturn := h.turn
  have hdrawn := h.drawn
  rw [ratchets_recordStep, List.length_cons]
  generalize o.receiver = x at hahead ⊢
  cases x <;> simp only [Party.eraLen, Party.peer, sendingChain] at hahead ⊢ <;> omega

omit [DecidableEq α] in
/-- No frame is in a chain that has not been started. -/
theorem Lockstep.sentIn_eq_nil {y : Party} {chain : Nat} (hchain : w.sendingChain y < chain) :
    w.sentIn y chain = [] := by
  refine List.eq_nil_iff_forall_not_mem.mpr fun s hs => ?_
  obtain ⟨hmem, rfl, rfl⟩ := mem_sentIn.mp hs
  exact absurd (h.genuine s hmem).chain_le (Nat.not_le.mpr hchain)

omit [DecidableEq α] in
/-- The length of a party's newest chain, as its session counts it. -/
theorem Lockstep.sending_next (y : Party) :
    (((w.session y).sending.map Chain.next).getD 0).toNat
      = (w.sentIn y (w.sendingChain y)).length := by
  cases hsending : (w.session y).sending with
  | some chain =>
    obtain ⟨start, -, rfl⟩ := h.sending_eq hsending
    exact toNat_ofNat_of_le (h.length_sentIn_le _ _)
  | none =>
    have hnone := hsending
    rw [(h.synced y).sending, Option.map_eq_none_iff] at hnone
    have hnil : w.sentIn y (w.sendingChain y) = [] := by
      refine List.eq_nil_iff_forall_not_mem.mpr fun s hs => ?_
      obtain ⟨hmem, hsender, hchain⟩ := mem_sentIn.mp hs
      obtain ⟨key, hkey, -⟩ := (h.genuine s hmem).sealing
      have hgenuine := (h.genuine s hmem).key
      rw [hkey, hsender, hchain, messageKeyOf, hnone] at hgenuine
      cases hgenuine
    rw [hnil]
    rfl

end Eras

/-! ## Opening with a ratchet step -/

/-- What a ratchet step does: the receiver draws a new ratchet key, which opens a new era
    of its own, and its receiving chain is now the peer's newest. -/
structure Stride (P : Primitives α σ) (sharedKey : SecretKey α) (naming : Naming)
    (w : World α σ) (s' : Session α σ) (o : Opening α) (t : Sealing α) : Prop where
  origin : w.Origin naming o t
  chain : t.chain = w.steps o.receiver + 1
  ahead : w.sendingChain o.receiver.peer = w.steps o.receiver + 1
  contributory : ∀ remote era, w.ratchets = remote :: era →
    P.x25519 s'.ownRatchet (publicKey P remote) ≠ zeroBytes
  rootKey : s'.rootKey = rootKeyOf P sharedKey (s'.ownRatchet :: w.ratchets)
  remote : s'.remoteRatchet = w.ratchets.head?.map (publicKey P)
  sending : s'.sending = (startKeyOf P sharedKey (s'.ownRatchet :: w.ratchets)).map fun start =>
    chainAt P start 0
  receiving : s'.receiving = (startKeyOf P sharedKey w.ratchets).map fun start =>
    chainAt P start (t.number + 1)
  position_eq : (s'.receiving.map fun chain => chain.next.toNat).getD 0 = t.number + 1
  previous : s'.previousSendingLen.toNat
    = (w.sentIn o.receiver (w.sendingChain o.receiver)).length
  stored : ∀ e ∈ s'.skipped, ∃ s, w.StoredFor o.receiver e s ∧
    (s.chain ≤ w.steps o.receiver ∨ s.chain = w.steps o.receiver + 1 ∧ s.number ≤ t.number) ∧
    naming.ofEntry e ∉ w.openedNames naming o.receiver ∧
    naming.ofEntry e ≠ naming.ofSealing t
  storedOnce : (s'.skipped.map naming.ofEntry).Nodup

section Stride

variable {s' : Session α σ} {o : Opening α}

omit [DecidableEq α] [Octet α] in
theorem sendingChain_recordStep_self :
    (w.recordStep s' o).sendingChain o.receiver = w.sendingChain o.receiver + 1 := by
  rw [sendingChain_eq, sendingChain_eq, steps_recordStep_self]
  omega

omit [DecidableEq α] [Octet α] in
theorem sendingChain_recordStep_of_ne {y : Party} (hy : y ≠ o.receiver) :
    (w.recordStep s' o).sendingChain y = w.sendingChain y := by
  rw [sendingChain_eq, sendingChain_eq, steps_recordStep_of_ne _ _ _ hy]

namespace Stride

variable (d : Stride P sharedKey naming w s' o t)

include d

omit [DecidableEq α] in
theorem received_self : (w.recordStep s' o).received o.receiver = t.number + 1 := by
  rw [received, session_recordStep_self]
  exact d.position_eq

omit [DecidableEq α] in
theorem passed_self {u : Sealing α}
    (hu : u.chain ≤ w.steps o.receiver ∨
      u.chain = w.steps o.receiver + 1 ∧ u.number ≤ t.number) :
    (w.recordStep s' o).Passed o.receiver u := by
  rw [Passed, d.received_self, steps_recordStep_self]
  exact hu.imp Nat.lt_succ_of_le (And.imp_right Nat.lt_succ_of_le)

omit [DecidableEq α] in
theorem delivery : Delivery naming w (w.recordStep s' o) s' o t where
  origin := d.origin
  session_self := session_recordStep_self _ _ _
  session_other _ hy := session_recordStep_of_ne _ _ _ hy
  sealings := rfl
  openedBy_self := openedBy_recordOpening_self w s' o
  openedBy_other _ hy := openedBy_recordOpening_of_ne w s' o hy.symm
  passed_mono y u hu := by
    -- the receiver is in a later chain now, so it has passed whatever it had
    by_cases hy : y = o.receiver
    · subst hy
      refine d.passed_self (.inl ?_)
      rcases hu with hlt | ⟨heq, -⟩
      · exact Nat.le_of_lt hlt
      · exact Nat.le_of_eq heq
    · rw [Passed, received, session_recordStep_of_ne _ _ _ hy, ← received,
        steps_recordStep_of_ne _ _ _ hy]
      exact hu
  passed_other y u hy hu := by
    rw [Passed, received, session_recordStep_of_ne _ _ _ hy, ← received,
      steps_recordStep_of_ne _ _ _ hy] at hu
    exact hu
  passed := d.passed_self (.inr ⟨d.chain, Nat.le_refl _⟩)
  stored e he := by
    obtain ⟨s, hstored, hp, hunopened⟩ := d.stored e he
    exact ⟨s, hstored, d.passed_self hp, hunopened⟩
  storedOnce := d.storedOnce

end Stride

omit [DecidableEq α] in
/-- A ratchet step keeps the sessions in lockstep. -/
theorem Lockstep.recordStep (h : Lockstep P sharedKey naming w)
    (d : Stride P sharedKey naming w s' o t) :
    Lockstep P sharedKey naming (w.recordStep s' o) := by
  -- the two eras that a step touches: the receiver's new one, and the chain it now reads
  have heraSelf := h.eraOf_recordStep_self s' d.ahead
  have heraPeer : (w.recordStep s' o).eraOf o.receiver.peer (w.steps o.receiver + 1)
      = w.ratchets := by
    rw [h.eraOf_recordStep s' (Nat.le_of_eq d.ahead.symm), h.eraOf_next d.ahead]
  have hbelow : t.number < (w.sentIn o.receiver.peer (w.steps o.receiver + 1)).length :=
    h.number_lt (mem_sentIn.mpr ⟨d.origin.mem, d.origin.sender, d.chain⟩)
  have hstepsOther := steps_recordStep_of_ne w s' o (Party.peer_ne o.receiver)
  constructor
  case turn =>
    have hturn := h.turn
    have hahead := d.ahead
    have hsteps := steps_recordStep_self w s' o
    cases hx : o.receiver <;>
      simp only [hx, Party.peer, sendingChain] at hahead hstepsOther hsteps <;> omega
  case drawn =>
    have hdrawn := h.drawn
    have hsteps := steps_recordStep_self w s' o
    rw [ratchets_recordStep, List.length_cons]
    cases hx : o.receiver <;> simp only [hx, Party.peer] at hstepsOther hsteps <;> omega
  case contributory =>
    intro newest second era heq
    rw [ratchets_recordStep] at heq
    obtain ⟨rfl, htail⟩ := List.cons_eq_cons.mp heq
    exact d.contributory _ _ htail
  case synced =>
    intro y
    by_cases hy : y = o.receiver
    · subst hy
      -- the new sending chain
      constructor
      case era =>
        rw [sendingChain_recordStep_self, session_recordStep_self, steps_recordStep_self,
          heraSelf, heraPeer]
      case rootKey =>
        rw [sendingChain_recordStep_self, session_recordStep_self, heraSelf]
        exact d.rootKey
      case remote =>
        rw [session_recordStep_self, steps_recordStep_self, heraPeer]
        exact d.remote
      case chainStart =>
        rw [sendingChain_recordStep_self, heraSelf, chainStart_recordStep_self, d.sending,
          Option.map_map]
        exact Option.map_id'
      case sending =>
        rw [sendingChain_recordStep_self, session_recordStep_self, heraSelf, sentIn_recordStep,
          h.sentIn_eq_nil (Nat.lt_succ_self _)]
        exact d.sending
      -- the new receiving chain, up to the frame that was opened
      case receiving =>
        rw [session_recordStep_self, steps_recordStep_self, heraPeer, d.received_self]
        exact d.receiving
      case received_le =>
        rw [d.received_self, steps_recordStep_self, sentIn_recordStep]
        exact hbelow
      case previous =>
        rw [session_recordStep_self, sendingChain_recordStep_self, sentIn_recordStep,
          Nat.add_sub_cancel]
        exact d.previous
    · exact (h.synced y).mono (session_recordStep_of_ne _ _ _ hy)
        (steps_recordStep_of_ne _ _ _ hy) (sendingChain_recordStep_of_ne hy)
        (Function.update_of_ne hy _ _) (h.eraOf_recordStep s' (Nat.le_refl _))
        (h.eraOf_recordStep s' (h.steps_le y).1) (fun _ => rfl) (Nat.le_refl _)
  case genuine =>
    intro s hs
    -- the other frames keep their chains, in which only the receiver's count has grown
    have hsg := h.genuine s hs
    have hle : w.sendingChain s.sender ≤ (w.recordStep s' o).sendingChain s.sender := by
      by_cases hy : s.sender = o.receiver
      · rw [hy, sendingChain_recordStep_self]
        exact Nat.le_succ _
      · exact Nat.le_of_eq (sendingChain_recordStep_of_ne hy).symm
    exact hsg.mono hle (h.eraOf_recordStep s' hsg.chain_le) rfl
  case numbered => exact h.numbered
  case opened => exact d.delivery.opened h
  case openedOnce => exact d.delivery.openedOnce h
  case stored => exact d.delivery.stored' h
  case storedOnce => exact d.delivery.storedOnce' h

end Stride

/-! ## The ratchet step of the code -/

section Step

variable (h : Lockstep P sharedKey naming w) (distinct : naming.Distinct w)
  (horigin : w.Origin naming ⟨x, some key, plaintext, sealed⟩ t)
  (hchain : t.chain = w.steps x + 1)

include h horigin hchain

omit [DecidableEq α] in
/-- The header of a peer's next chain gives the full length of its current one. -/
theorem Lockstep.previousChainLen_eq : (Header.parse sealed.frame).previousChainLen.toNat
    = (w.sentIn x.peer (w.steps x)).length := by
  have hheader : t.header = Header.parse sealed.frame := horigin.header_eq
  have hsender : t.sender = x.peer := horigin.sender
  rw [← hheader, (h.genuine t horigin.mem).previous, hsender, hchain, Nat.add_sub_cancel]

variable {receiving : Key α} (hnext : w.sendingChain x.peer = w.steps x + 1)
  (hahead : Ahead P sharedKey w x t (Header.parse sealed.frame) (w.steps x + 1) 0 receiving)

include hahead distinct

omit [DecidableEq α] in
/-- All keys that a ratchet step stores belong to different frames. -/
theorem Lockstep.nodup_added :
    (((w.session x).missing P (Header.parse sealed.frame) ++
      Session.overtaken P (Header.parse sealed.frame) (chainAt P receiving 0)).map
        naming.ofEntry).Nodup := by
  have hprevious := h.previousChainLen_eq horigin hchain
  rw [List.map_append]
  refine List.Nodup.append (h.nodup_missing distinct hprevious)
    (hahead.nodup_overtaken h distinct) fun name hmissing hnew => ?_
  obtain ⟨e, he, rfl⟩ := List.mem_map.mp hmissing
  obtain ⟨f, hf, hname⟩ := List.mem_map.mp hnew
  obtain ⟨s, hs, hin, -⟩ := h.storedFor_missing hprevious he
  obtain ⟨u, hu, huIn, -⟩ := hahead.storedFor_overtaken h hf
  refine hs.name_ne distinct hu.1 hu.2.1 ?_ (hname.symm.trans (hu.name_eq naming).symm)
  rintro rfl
  omega

omit distinct [DecidableEq α] in
/-- The keys that a ratchet step stores belong to frames in the chain that is closed, past
    the position that was reached, and to frames that `t` overtook in the chain that is
    opened. -/
theorem Lockstep.storedFor_added {e : SkippedKey α}
    (he : e ∈ (w.session x).missing P (Header.parse sealed.frame) ++
      Session.overtaken P (Header.parse sealed.frame) (chainAt P receiving 0)) :
    ∃ s, w.StoredFor x e s ∧ ¬ w.Passed x s ∧
      (s.chain ≤ w.steps x ∨ s.chain = w.steps x + 1 ∧ s.number ≤ t.number) ∧ s ≠ t := by
  rcases List.mem_append.mp he with hmissing | hnew
  · obtain ⟨s, hstored, hin, hge⟩ :=
      h.storedFor_missing (h.previousChainLen_eq horigin hchain) hmissing
    refine ⟨s, hstored, ?_, .inl (Nat.le_of_eq hin), ?_⟩
    · exact not_passed_of_le hin hge
    · rintro rfl
      omega
  · obtain ⟨s, hstored, hin, -, hlt⟩ := hahead.storedFor_overtaken h hnew
    refine ⟨s, hstored, ?_, .inr ⟨hin, Nat.le_of_lt hlt⟩, ?_⟩
    · exact not_passed_of_lt (by omega)
    · rintro rfl
      exact Nat.lt_irrefl _ hlt

include hnext

/-- The session after a ratchet step of the code. -/
theorem Lockstep.stride_step {own : σ} {middle root : SecretKey α} {sending : Key α}
    (hmiddle : rootKeyOf P sharedKey w.ratchets = middle)
    (hsending : kdfRoot P middle own (Header.parse sealed.frame).ratchet = .ok (root, sending)) :
    Stride P sharedKey naming w
      (((w.session x).afterStep P (Header.parse sealed.frame) own root sending).advanceReceiving P
        (Header.parse sealed.frame) (chainAt P receiving 0))
      ⟨x, some key, plaintext, sealed⟩ t := by
  have hlimit := (h.genuine t horigin.mem).belowLimit
  have hhead := hahead.ratchet_eq h
  have hstartKey := hahead.start_eq
  rw [h.eraOf_next hnext] at hhead hstartKey
  -- the header's ratchet key is the newest that was drawn
  obtain ⟨peerOwn, rest, hratchets⟩ : ∃ peerOwn rest, w.ratchets = peerOwn :: rest := by
    cases hnil : w.ratchets with
    | nil => simp [hnil] at hhead
    | cons peerOwn rest => exact ⟨_, _, rfl⟩
  have hpeerOwn : (Header.parse sealed.frame).ratchet = publicKey P peerOwn := by
    rw [hratchets, List.head?_cons, Option.map_some, Option.some.injEq] at hhead
    exact hhead.symm
  -- so both key derivations are those of the eras
  obtain ⟨hnonzero, hroot, hstart⟩ := (kdfRoot_eq_ok_iff P).mp hsending
  rw [hpeerOwn] at hnonzero
  rw [hpeerOwn, ← hmiddle] at hroot hstart
  have hpassed : ∀ u : Sealing α, w.Passed x u → u.chain ≤ w.steps x := by
    rintro u (hlt | ⟨heq, -⟩)
    · exact Nat.le_of_lt hlt
    · exact Nat.le_of_eq heq
  have hne : ∀ e s, w.StoredFor x e s → s ≠ t → naming.ofEntry e ≠ naming.ofSealing t :=
    fun e s hstored hst => hstored.name_ne distinct horigin.mem horigin.sender hst
  have hreceivingEq := hahead.receiving_eq h
    ((w.session x).afterStep P (Header.parse sealed.frame) own root sending)
  have hsublist := Session.afterStep_sublist P (w.session x) (Header.parse sealed.frame) own root
    sending (chainAt P receiving 0)
  constructor
  case origin => exact horigin
  case chain => exact hchain
  case ahead => exact hnext
  case contributory =>
    intro remote era heq
    rw [hratchets] at heq
    obtain ⟨rfl, -⟩ := List.cons_eq_cons.mp heq
    exact hnonzero
  case rootKey =>
    show root = rootKeyOf P sharedKey (own :: w.ratchets)
    rw [hratchets, rootKeyOf_cons_cons, ← hratchets, hroot]
  case remote =>
    rw [hhead]
    rfl
  case sending =>
    show some _ = (startKeyOf P sharedKey (own :: w.ratchets)).map _
    rw [hratchets, startKeyOf_cons_cons, ← hratchets, ← hstart]
    rfl
  case receiving => rw [hreceivingEq, hstartKey, Option.map_some]
  case position_eq =>
    rw [hreceivingEq]
    exact toNat_ofNat_of_le (by omega)
  case previous => exact h.sending_next x
  case stored =>
    intro e he
    rcases List.mem_append.mp (hsublist.subset he) with hold | hnew
    -- kept from before: in a chain that is closed now
    · obtain ⟨s, hstored, hp, hunopened⟩ := h.stored x e hold
      have hst : s ≠ t := by
        rintro rfl
        have := hpassed s hp
        omega
      exact ⟨s, hstored, .inl (hpassed s hp), hunopened, hne e s hstored hst⟩
    -- stored now: missing from the closed chain, or overtaken in the new one
    · obtain ⟨s, hstored, hnot, hp, hst⟩ := h.storedFor_added horigin hchain hahead hnew
      exact ⟨s, hstored, hp, h.entry_unopened distinct hstored hnot, hne e s hstored hst⟩
  case storedOnce =>
    exact h.stored_append distinct hsublist (fun e he =>
      have ⟨s, hstored, hnot, _⟩ := h.storedFor_added horigin hchain hahead he
      ⟨s, hstored, hnot⟩) (h.nodup_added distinct horigin hchain hahead)

end Step

end World

end Quietwire
