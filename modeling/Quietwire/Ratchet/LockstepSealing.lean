/-
  Quietwire.Ratchet.LockstepSealing

  Sealing a frame keeps the sessions in lockstep.
-/
import Quietwire.Ratchet.Lockstep

namespace Quietwire

variable {α σ : Type} [Octet α] {P : Primitives α σ} {sharedKey : SecretKey α}
  {naming : Naming}

namespace World

variable {w w' : World α σ}

/-- A frame stays genuine while eras are only added and its previous chain is closed. -/
theorem Genuine.mono {s : Sealing α} (hs : Genuine P sharedKey w s)
    (hchain : w.sendingChain s.sender ≤ w'.sendingChain s.sender)
    (hera : w'.eraOf s.sender s.chain = w.eraOf s.sender s.chain)
    (hsent : w'.sentIn s.sender (s.chain - 1) = w.sentIn s.sender (s.chain - 1)) :
    Genuine P sharedKey w' s where
  chain_pos := hs.chain_pos
  chain_le := Nat.le_trans hs.chain_le hchain
  key := by rw [hera]; exact hs.key
  ratchet := by rw [hera]; exact hs.ratchet
  previous := by rw [hsent]; exact hs.previous
  aad := hs.aad
  sealing := hs.sealing
  belowLimit := hs.belowLimit

/-- A session stays where it is in the key schedule while nothing happens but at its
    peer. -/
theorem Synced.mono {y : Party} (hy : Synced P sharedKey w y)
    (hsession : w'.session y = w.session y) (hsteps : w'.steps y = w.steps y)
    (hchain : w'.sendingChain y = w.sendingChain y)
    (hstart : w'.chainStart y = w.chainStart y)
    (hown : w'.eraOf y (w.sendingChain y) = w.eraOf y (w.sendingChain y))
    (hpeer : w'.eraOf y.peer (w.steps y) = w.eraOf y.peer (w.steps y))
    (hsent : ∀ chain, w'.sentIn y chain = w.sentIn y chain)
    (hmore : (w.sentIn y.peer (w.steps y)).length ≤ (w'.sentIn y.peer (w.steps y)).length) :
    Synced P sharedKey w' y := by
  have hreceived : w'.received y = w.received y := by rw [received, received, hsession]
  constructor
  case era => rw [hchain, hsession, hsteps, hown, hpeer]; exact hy.era
  case rootKey => rw [hchain, hsession, hown]; exact hy.rootKey
  case remote => rw [hsession, hsteps, hpeer]; exact hy.remote
  case chainStart => rw [hchain, hstart, hown]; exact hy.chainStart
  case sending => rw [hchain, hsession, hown, hsent]; exact hy.sending
  case receiving => rw [hsession, hsteps, hpeer, hreceived]; exact hy.receiving
  case received_le => rw [hsteps, hreceived]; exact Nat.le_trans hy.received_le hmore
  case previous => rw [hchain, hsession, hsent]; exact hy.previous

section Sealing

variable {x : Party} {nonce : Nonce α} {plaintext : Plaintext α} {sealed : SealedFrame α}
  {s : Session α σ} {chain : Chain α}

omit [Octet α] in
theorem received_recordSealing {sealing : Sealing α}
    (hs : s.receiving = (w.session sealing.sender).receiving) (y : Party) :
    (w.recordSealing s sealing).received y = w.received y := by
  unfold received
  by_cases hy : y = sealing.sender
  · subst hy
    rw [session_recordSealing_self, hs]
  · rw [session_recordSealing_of_ne _ _ _ hy]

theorem passed_recordSealing {sealing : Sealing α}
    (hs : s.receiving = (w.session sealing.sender).receiving) (y : Party) (t : Sealing α) :
    (w.recordSealing s sealing).Passed y t ↔ w.Passed y t := by
  rw [Passed, Passed, received_recordSealing hs, steps_recordSealing]

omit [Octet α] in
theorem length_sentIn_recordSealing_le (sealing : Sealing α) (y : Party) (c : Nat) :
    (w.sentIn y c).length ≤ ((w.recordSealing s sealing).sentIn y c).length := by
  rw [sentIn, sentIn, sealings_recordSealing]
  exact ((List.sublist_cons_self _ _).filter _).length_le

variable (h : Lockstep P sharedKey naming w)
  (run : Session.Sealed P nonce plaintext (w.session x) sealed s chain)

include h run

/-- A frame is numbered by the frames that were in its chain before it. -/
theorem Lockstep.number_sealed : (Header.parse sealed.frame).messageNumber.toNat
    = (w.sentIn x (w.sendingChain x)).length := by
  obtain ⟨start, -, hchain⟩ := h.sending_eq run.sending
  have hlen := h.length_sentIn_le x (w.sendingChain x)
  rw [run.header, Session.nextHeader, hchain, chainAt, toNat_ofNat_of_le hlen]

/-- The sealing that a successful `encrypt` call adds to the log. -/
theorem Lockstep.genuine_sealed :
    1 ≤ w.sendingChain x ∧
      ∀ w' : World α σ, w'.sendingChain x = w.sendingChain x →
        w'.eraOf x (w.sendingChain x) = w.eraOf x (w.sendingChain x) →
        w'.sentIn x (w.sendingChain x - 1) = w.sentIn x (w.sendingChain x - 1) →
        Genuine P sharedKey w'
          ⟨x, w.sendingChain x, some (kdfChain P chain.key).1, plaintext, sealed⟩ := by
  obtain ⟨start, hstart, hchain⟩ := h.sending_eq run.sending
  have hnumber := h.number_sealed run
  have hpos : 1 ≤ w.sendingChain x := by
    -- chain 0 is the responder's before its first step: it has no keys to seal with
    rcases Nat.eq_zero_or_pos (w.sendingChain x) with hzero | hpos
    · have hshort : (w.eraOf x (w.sendingChain x)).length ≤ 1 := by
        rw [h.length_era (Nat.le_refl _), hzero]
        cases x <;> simp [Party.eraLen]
      rw [startKeyOf_of_length_le P _ hshort] at hstart
      cases hstart
    · exact hpos
  refine ⟨hpos, fun w' hsending hera hsent => ?_⟩
  constructor
  case chain_pos => exact hpos
  case chain_le => exact Nat.le_of_eq hsending.symm
  case key =>
    -- the n-th key of the chain, for the n-th frame
    show some _ = messageKeyOf P sharedKey (w'.eraOf x (w.sendingChain x)) _
    rw [hera, messageKeyOf, hstart, Option.map_some, Sealing.number, Sealing.header, hnumber,
      hchain]
    rfl
  case ratchet =>
    show (w'.eraOf x (w.sendingChain x)).head?.map (publicKey P) = _
    rw [hera, (h.synced x).era, Sealing.header, run.header]
    rfl
  case previous =>
    show _ = (w'.sentIn x (w.sendingChain x - 1)).length
    rw [hsent, ← (h.synced x).previous, Sealing.header, run.header]
    rfl
  case aad =>
    show sealed.aad = (Header.parse sealed.frame).toBytes
    rw [run.header]
    exact run.aad
  case sealing =>
    refine ⟨_, rfl, ?_⟩
    rw [← run.nonce_eq] at run
    exact run.sealing
  case belowLimit =>
    show (Header.parse sealed.frame).messageNumber.toNat < 2000
    rw [run.header]
    exact run.belowLimit

/-- A successful `encrypt` call keeps the sessions in lockstep. -/
theorem Lockstep.recordSealing :
    Lockstep P sharedKey naming (w.recordSealing s
      ⟨x, w.sendingChain x, some (kdfChain P chain.key).1, plaintext, sealed⟩) := by
  obtain ⟨hpos, hgenuine⟩ := h.genuine_sealed run
  generalize hsealing : (⟨x, w.sendingChain x, some (kdfChain P chain.key).1, plaintext, sealed⟩ :
    Sealing α) = sealing at hgenuine ⊢
  have hsender : sealing.sender = x := by rw [← hsealing]
  have hin : sealing.chain = w.sendingChain x := by rw [← hsealing]
  have hreceiving : s.receiving = (w.session sealing.sender).receiving := by
    rw [hsender, run.after]
  -- every other chain is as long as before, in particular every closed one
  have hclosed : ∀ y c, c < w.sendingChain y →
      (w.recordSealing s sealing).sentIn y c = w.sentIn y c := by
    intro y c hc
    apply sentIn_recordSealing_of_ne
    by_cases hy : sealing.sender = y
    · right
      rw [hin]
      rw [hsender] at hy
      subst hy
      omega
    · exact .inl hy
  have hother : ∀ y c, y ≠ x → (w.recordSealing s sealing).sentIn y c = w.sentIn y c := by
    intro y c hy
    exact sentIn_recordSealing_of_ne _ _ _ (.inl (by rw [hsender]; exact hy.symm))
  have hself : (w.recordSealing s sealing).sentIn x (w.sendingChain x)
      = sealing :: w.sentIn x (w.sendingChain x) := by
    rw [← hin, ← hsender]
    exact sentIn_recordSealing_self _ _ _
  obtain ⟨start, hstart, hchain⟩ := h.sending_eq run.sending
  have hnumber : sealing.number = (w.sentIn x (w.sendingChain x)).length := by
    rw [← hsealing]
    exact h.number_sealed run
  constructor
  case turn => exact h.turn
  case drawn => exact h.drawn
  case contributory => exact h.contributory
  case synced =>
    intro y
    have hy := h.synced y
    by_cases hyx : y = x
    · subst hyx
      have hsession : (w.recordSealing s sealing).session y = { w.session y with
          sending := some { key := (kdfChain P chain.key).2, next := chain.next + 1 } } := by
        rw [← run.after, ← hsender]
        exact session_recordSealing_self _ _ _
      constructor
      case era =>
        rw [sendingChain_recordSealing, hsession]
        exact hy.era
      case rootKey =>
        rw [sendingChain_recordSealing, hsession]
        exact hy.rootKey
      case remote =>
        rw [hsession]
        exact hy.remote
      case chainStart =>
        rw [sendingChain_recordSealing]
        exact hy.chainStart
      case sending =>
        show _ = (startKeyOf P sharedKey (w.eraOf y _)).map _
        rw [sendingChain_recordSealing, hsession, hself, hstart, Option.map_some, hchain,
          List.length_cons]
        simp only [chainAt, ← chainKeyAt_succ, Option.some.injEq, Chain.mk.injEq, true_and]
        rw [UInt32.ofNat_add]
        rfl
      case receiving =>
        rw [received_recordSealing hreceiving, hsession]
        exact hy.receiving
      case received_le =>
        rw [received_recordSealing hreceiving]
        exact Nat.le_trans hy.received_le (length_sentIn_recordSealing_le _ _ _)
      case previous =>
        rw [sendingChain_recordSealing, hclosed y _ (by omega), hsession]
        exact hy.previous
    · have hsession : (w.recordSealing s sealing).session y = w.session y :=
        session_recordSealing_of_ne _ _ _ (by rw [hsender]; exact hyx)
      exact hy.mono hsession rfl (sendingChain_recordSealing _ _ _ _) rfl rfl rfl
        (fun c => hother y c hyx) (length_sentIn_recordSealing_le _ _ _)
  case genuine =>
    intro t ht
    rcases List.mem_cons.mp ht with rfl | ht
    · exact hgenuine _ (sendingChain_recordSealing _ _ _ _) rfl (hclosed _ _ (by omega))
    · have htg := h.genuine t ht
      have hpos := htg.chain_pos
      have hle := htg.chain_le
      exact htg.mono (Nat.le_of_eq (sendingChain_recordSealing _ _ _ _).symm) rfl
        (hclosed _ _ (by omega))
  case numbered =>
    intro y c
    by_cases hyc : sealing.sender = y ∧ sealing.chain = c
    · obtain ⟨rfl, rfl⟩ := hyc
      rw [sentIn_recordSealing_self, List.map_cons, h.numbered, List.length_cons, List.range_succ,
        List.reverse_append, List.reverse_singleton, List.singleton_append, hnumber, hsender, hin]
    · rw [sentIn_recordSealing_of_ne _ _ _ (Decidable.not_and_iff_or_not.mp hyc)]
      exact h.numbered y c
  case opened =>
    intro y o ho
    obtain ⟨t, ht, htSender, htKey, htSealed, htPlaintext, htPassed⟩ := h.opened y o ho
    exact ⟨t, List.mem_cons_of_mem _ ht, htSender, htKey, htSealed, htPlaintext,
      (passed_recordSealing hreceiving y t).mpr htPassed⟩
  case openedOnce => exact h.openedOnce
  case stored =>
    intro y e he
    have he' : e ∈ (w.session y).skipped := by
      by_cases hyx : y = x
      · subst hyx
        rw [← hsender, session_recordSealing_self, run.after] at he
        exact he
      · rwa [session_recordSealing_of_ne _ _ _ (by rw [hsender]; exact hyx)] at he
    obtain ⟨t, ⟨htMem, htStored⟩, htPassed, htUnopened⟩ := h.stored y e he'
    exact ⟨t, ⟨List.mem_cons_of_mem _ htMem, htStored⟩,
      (passed_recordSealing hreceiving y t).mpr htPassed, htUnopened⟩
  case storedOnce =>
    intro y
    by_cases hyx : y = x
    · subst hyx
      rw [← hsender, session_recordSealing_self, run.after]
      exact h.storedOnce y
    · rw [session_recordSealing_of_ne _ _ _ (by rw [hsender]; exact hyx)]
      exact h.storedOnce y

end Sealing

end World

end Quietwire
