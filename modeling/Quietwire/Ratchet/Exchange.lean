/-
  Quietwire.Ratchet.Exchange

  One turn of a conversation: a party seals a frame that its peer is given at
  once.  The frame opens unless its sender has reached the chain limit, or its
  receiver would have to skip more than 1 000 frames (`World.Deaf`).
-/
import Quietwire.Ratchet.Deliverable

namespace Quietwire

variable {α σ : Type} [DecidableEq α] [Octet α] {P : Primitives α σ} {sharedKey : SecretKey α}
  {naming : Naming}

/-- One `encrypt` call, and the ratchet key that its frame may make the peer draw. -/
structure Turn (α σ : Type) where
  sender : Party
  nonce : Nonce α
  plaintext : Plaintext α
  own : σ

omit [DecidableEq α] in
theorem Session.exists_sealed (total : TotalSealing P) {s : Session α σ} {chain : Chain α}
    (hsending : s.sending = some chain) (hlimit : chain.next.toNat < 2000) (nonce : Nonce α)
    (plaintext : Plaintext α) :
    ∃ sealed s', Session.Sealed P nonce plaintext s sealed s' chain := by
  obtain ⟨ciphertext, hseal⟩ := total (kdfChain P chain.key).1 nonce
    (s.nextHeader P chain).toBytes.toList plaintext
  refine ⟨.assemble nonce (s.nextHeader P chain) ciphertext, _, hsending, hlimit, rfl,
    SealedFrame.parse_assemble _ _ _, SealedFrame.assemble_aad _ _ _, ?_, rfl⟩
  rw [SealedFrame.assemble_aad, SealedFrame.assemble_ciphertext]
  exact hseal

namespace World

variable {w : World α σ} {x : Party}

/-! ## Turns -/

variable (P) in
/-- A party seals a frame and its peer is given it; when it is not sealed, nothing is
    delivered. -/
def turn (w : World α σ) (t : Turn α σ) : World α σ :=
  match w.step P (.encrypt t.sender (.ok t.nonce) t.plaintext) with
  | (w', .sealed (.ok sealed)) => (w'.step P (.decrypt t.sender.peer sealed (.ok t.own))).1
  | (w', _) => w'

variable (P) in
def turns (w : World α σ) (list : List (Turn α σ)) : World α σ := list.foldl (turn P) w

omit [DecidableEq α] in
/-- The sealing that is recorded when `x` seals `sealed` at the position of `chain`. -/
def nextSealing (P : Primitives α σ) (w : World α σ) (x : Party) (chain : Chain α)
    (plaintext : Plaintext α) (sealed : SealedFrame α) : Sealing α :=
  ⟨x, w.sendingChain x, some (kdfChain P chain.key).1, plaintext, sealed⟩

/-- A turn that is not refused seals the next frame of its sender and delivers it. -/
theorem turn_cases (w : World α σ) (t : Turn α σ) : w.turn P t = w ∨
    ∃ sealed s chain,
      Session.Sealed P t.nonce t.plaintext (w.session t.sender) sealed s chain ∧
      w.turn P t = ((w.recordSealing s (nextSealing P w t.sender chain t.plaintext sealed)).step P
        (.decrypt t.sender.peer sealed (.ok t.own))).1 := by
  unfold turn
  cases hw : w.step P (.encrypt t.sender (.ok t.nonce) t.plaintext) with
  | mk w' output =>
    have htransition := w.step_transition (P := P) (.encrypt t.sender (.ok t.nonce) t.plaintext)
    rw [hw] at htransition
    cases htransition with
    | refusedSealing => exact .inl rfl
    | sealed run => exact .inr ⟨_, _, _, run, rfl⟩

theorem turn_of_sealed {t : Turn α σ} {sealed : SealedFrame α} {s : Session α σ}
    {chain : Chain α}
    (run : Session.Sealed P t.nonce t.plaintext (w.session t.sender) sealed s chain) :
    w.turn P t = ((w.recordSealing s (nextSealing P w t.sender chain t.plaintext sealed)).step P
      (.decrypt t.sender.peer sealed (.ok t.own))).1 := by
  rw [turn, step, encrypt_of_sealed run]
  rfl

omit [DecidableEq α] in
/-- The sending chain of a party that has started one. -/
theorem Lockstep.exists_sending (h : Lockstep P sharedKey naming w)
    (hstarted : 1 ≤ w.sendingChain x) : ∃ chain, (w.session x).sending = some chain ∧
      chain.next.toNat = (w.sentIn x (w.sendingChain x)).length := by
  have hlen := h.length_era (Nat.le_refl (w.sendingChain x))
  have hsending := (h.synced x).sending
  rcases era_cases (w.eraOf x (w.sendingChain x)) with hshort | ⟨own, remote, rest, hera⟩
  · exfalso
    rw [hlen] at hshort
    cases x <;> simp only [Party.eraLen] at hshort <;> omega
  · rw [hera, startKeyOf_cons_cons, Option.map_some] at hsending
    exact ⟨_, hsending, toNat_ofNat_of_le (h.length_sentIn_le _ _)⟩

omit [DecidableEq α] in
/-- The next frame of a party can be sealed below the chain limit. -/
theorem Lockstep.exists_sealed (h : Lockstep P sharedKey naming w) (total : TotalSealing P)
    (hstarted : 1 ≤ w.sendingChain x)
    (hlimit : (w.sentIn x (w.sendingChain x)).length < 2000) (nonce : Nonce α)
    (plaintext : Plaintext α) : ∃ sealed s chain,
      Session.Sealed P nonce plaintext (w.session x) sealed s chain := by
  obtain ⟨chain, hsending, hnext⟩ := h.exists_sending hstarted
  obtain ⟨sealed, s, run⟩ :=
    Session.exists_sealed total hsending (by omega) nonce plaintext
  exact ⟨sealed, s, chain, run⟩

/-! ## Deaf parties -/

/-- A party that would have to skip more than 1 000 frames to open the next frame of its
    peer: that many are missing from the chain it receives, or wait in the next. -/
def Deaf (w : World α σ) (x : Party) : Prop :=
  1000 < (w.sentIn x.peer (w.steps x)).length - w.received x ∨
    1000 < (w.sentIn x.peer (w.steps x + 1)).length

omit [DecidableEq α] [Octet α] in
/-- It depends on the party's own position and the chains of its peer. -/
theorem Deaf.of_eq {w' : World α σ} (hdeaf : w.Deaf x) (hsteps : w'.steps x = w.steps x)
    (hsession : w'.session x = w.session x)
    (hsent : ∀ chain, w'.sentIn x.peer chain = w.sentIn x.peer chain) : w'.Deaf x := by
  rw [Deaf, received, hsession, ← received, hsteps, hsent, hsent]
  exact hdeaf

section Delivered

variable {nonce : Nonce α} {plaintext : Plaintext α} {sealed : SealedFrame α} {s : Session α σ}
  {chain : Chain α}

variable (h : Lockstep P sharedKey .byLabel w)
  (run : Session.Sealed P nonce plaintext (w.session x) sealed s chain)

include h run

omit [DecidableEq α] in
/-- The frame sealed last has not been passed, and it is in reach unless its receiver is
    deaf. -/
theorem Lockstep.inReach_nextSealing :
    ¬ (w.recordSealing s (nextSealing P w x chain plaintext sealed)).Passed x.peer
        (nextSealing P w x chain plaintext sealed) ∧
      ((w.recordSealing s (nextSealing P w x chain plaintext sealed)).InReach x.peer
        (nextSealing P w x chain plaintext sealed) ↔ ¬ w.Deaf x.peer) := by
  have hnumber : (nextSealing P w x chain plaintext sealed).number
      = (w.sentIn x (w.sendingChain x)).length := h.number_sealed run
  have hchain : (nextSealing P w x chain plaintext sealed).chain = w.sendingChain x := rfl
  have hreceiving : s.receiving
      = (w.session (nextSealing P w x chain plaintext sealed).sender).receiving := by
    rw [run.after]
    rfl
  have hseen := h.steps_le x.peer
  have hreceived := (h.synced x.peer).received_le
  rw [Party.peer_peer] at hseen hreceived
  -- both sides in terms of the counters of the two parties
  rw [passed_recordSealing hreceiving, InReach, received_recordSealing hreceiving,
    steps_recordSealing, Passed, Deaf, Party.peer_peer, hchain, hnumber]
  -- a new chain opens, or the current one goes on
  rcases Nat.lt_or_ge (w.steps x.peer) (w.sendingChain x) with hnext | hcurrent
  · have hsteps : w.sendingChain x = w.steps x.peer + 1 := by omega
    have hother : (w.recordSealing s (nextSealing P w x chain plaintext sealed)).sentIn x
        (w.steps x.peer) = w.sentIn x (w.steps x.peer) :=
      sentIn_recordSealing_of_ne _ _ _ (.inr (by rw [hchain]; omega))
    rw [hother, hsteps]
    omega
  · have hsteps : w.sendingChain x = w.steps x.peer := by omega
    have hnil : w.sentIn x (w.steps x.peer + 1) = [] := h.sentIn_eq_nil (by omega)
    rw [hsteps, hnil, List.length_nil]
    omega

omit [DecidableEq α] in
theorem Lockstep.recordNextSealing :
    Lockstep P sharedKey .byLabel (w.recordSealing s (nextSealing P w x chain plaintext sealed)) :=
  h.recordSealing run

variable (hdistinct : (w.ratchets.map (publicKey P)).Nodup)

include hdistinct

/-- A frame delivered at once opens unless its receiver is deaf. -/
theorem Lockstep.delivered (correct : CorrectPrimitives P) (hhears : ¬ w.Deaf x.peer) (own : σ) :
    ∃ key s', Session.Decrypted P
        ((w.recordSealing s (nextSealing P w x chain plaintext sealed)).session x.peer) sealed
        (.ok own) plaintext key s' ∧
      Opened P sharedKey .byLabel
        (w.recordSealing s (nextSealing P w x chain plaintext sealed)) x.peer sealed plaintext
        (nextSealing P w x chain plaintext sealed) key s'
        (((w.recordSealing s (nextSealing P w x chain plaintext sealed)).session
          x.peer).takesStep (Header.parse sealed.frame)) := by
  obtain ⟨hnot, hreach⟩ := h.inReach_nextSealing run
  have h' := h.recordNextSealing run
  exact h'.decrypts_inReach hdistinct List.mem_cons_self (Party.peer_peer x).symm hnot correct
    (h'.distinct_byLabel hdistinct) (hreach.mpr hhears) own

/-- A frame delivered at once to a deaf party does not open. -/
theorem Lockstep.refused_of_deaf (hdeaf : w.Deaf x.peer) {generated : Except CryptoError σ}
    {plaintext' : Plaintext α} {key : Key α} {s' : Session α σ}
    (hopens : Session.Decrypted P
      ((w.recordSealing s (nextSealing P w x chain plaintext sealed)).session x.peer) sealed
      generated plaintext' key s') : False := by
  obtain ⟨hnot, hreach⟩ := h.inReach_nextSealing run
  have hin := (h.recordNextSealing run).inReach_of_decrypted
    (s := nextSealing P w x chain plaintext sealed) hdistinct List.mem_cons_self
    (Party.peer_peer x).symm hnot hopens
  exact hreach.mp hin hdeaf

end Delivered

/-! ## What a turn does -/

/-- A turn consists of calls that are made to honest parties. -/
theorem Lockstep.turn_reaches (h : Lockstep P sharedKey .byLabel w)
    (hdistinct : (w.ratchets.map (publicKey P)).Nodup) (t : Turn α σ) :
    Machine.Reaches (World.step P) (World.Honest P) w (w.turn P t) := by
  rcases w.turn_cases (P := P) t with heq | ⟨sealed, s, chain, run, heq⟩
  · rw [heq]
    exact .refl
  · have hstep : w.step P (.encrypt t.sender (.ok t.nonce) t.plaintext)
        = (w.recordSealing s (nextSealing P w t.sender chain t.plaintext sealed),
          .sealed (.ok sealed)) := encrypt_of_sealed run
    have hsealed : Machine.Reaches (World.step P) (World.Honest P) w
        (w.recordSealing s (nextSealing P w t.sender chain t.plaintext sealed)) := by
      have honest : w.Honest P (.encrypt t.sender (.ok t.nonce) t.plaintext) := trivial
      have hsingle : Machine.Reaches (World.step P) (World.Honest P) w
          (w.step P (.encrypt t.sender (.ok t.nonce) t.plaintext)).1 := .single honest
      rw [hstep] at hsingle
      exact hsingle
    rw [heq]
    refine hsealed.tail (.inl ⟨nextSealing P w t.sender chain t.plaintext sealed, ?_, rfl,
      ⟨t.own, rfl⟩, fun hpassed => absurd hpassed (h.inReach_nextSealing run).1⟩)
    have h' := h.recordNextSealing run
    refine mem_unopened_of_label List.mem_cons_self (Party.peer_peer _).symm ?_
    exact h'.unopened_of_not_passed (h'.distinct_byLabel hdistinct) List.mem_cons_self
      (Party.peer_peer _).symm (h.inReach_nextSealing run).1

/-- A party that is deaf stays so, and opens nothing. -/
theorem Lockstep.deaf_turn (h : Lockstep P sharedKey .byLabel w)
    (hdistinct : (w.ratchets.map (publicKey P)).Nodup) (hdeaf : w.Deaf x) (t : Turn α σ) :
    (w.turn P t).Deaf x ∧ (w.turn P t).openedBy x = w.openedBy x := by
  rcases w.turn_cases (P := P) t with heq | ⟨sealed, s, chain, run, heq⟩
  · rw [heq]
    exact ⟨hdeaf, rfl⟩
  generalize hv : w.recordSealing s (nextSealing P w t.sender chain t.plaintext sealed) = v at heq
  have hsealedDeaf : v.Deaf x ∧ v.openedBy x = w.openedBy x := by
    rw [← hv]
    refine ⟨?_, rfl⟩
    have hreceiving : s.receiving
        = (w.session (nextSealing P w t.sender chain t.plaintext sealed).sender).receiving := by
      rw [run.after]
      rfl
    rw [Deaf, received_recordSealing hreceiving, steps_recordSealing]
    have hcurrent := length_sentIn_recordSealing_le (w := w) (s := s)
      (nextSealing P w t.sender chain t.plaintext sealed) x.peer (w.steps x)
    have hnext := length_sentIn_recordSealing_le (w := w) (s := s)
      (nextSealing P w t.sender chain t.plaintext sealed) x.peer (w.steps x + 1)
    rcases hdeaf with hfar | hfar
    · exact .inl (by omega)
    · exact .inr (by omega)
  rw [heq]
  cases hw : v.step P (.decrypt t.sender.peer sealed (.ok t.own)) with
  | mk w' output =>
    have htransition := v.step_transition (P := P) (.decrypt t.sender.peer sealed (.ok t.own))
    rw [hw] at htransition
    -- only the other party can have opened the frame
    have hother : ∀ {plaintext key s'}, Session.Decrypted P (v.session t.sender.peer) sealed
        (.ok t.own) plaintext key s' → t.sender.peer ≠ x := by
      rintro plaintext key s' hopens rfl
      rw [← hv] at hopens
      exact h.refused_of_deaf run hdistinct hdeaf hopens
    cases htransition with
    | refusedOpening => exact hsealedDeaf
    | opened hopens stays =>
      have hne := hother hopens
      refine ⟨?_, (openedBy_recordOpening_of_ne _ _ _ hne).trans hsealedDeaf.2⟩
      exact hsealedDeaf.1.of_eq rfl (session_recordOpening_of_ne _ _ _ hne.symm) fun _ => rfl
    | @stepped _ _ _ _ _ s' hopens steps =>
      have hne := hother hopens
      refine ⟨?_, (openedBy_recordOpening_of_ne v s' _ hne).trans hsealedDeaf.2⟩
      exact hsealedDeaf.1.of_eq (steps_recordStep_of_ne _ _ _ hne.symm)
        (session_recordStep_of_ne _ _ _ hne.symm) fun _ => rfl

section Hearing

variable (h : Lockstep P sharedKey .byLabel w) (correct : CorrectPrimitives P)
  (total : TotalSealing P) (hdistinct : (w.ratchets.map (publicKey P)).Nodup) (t : Turn α σ)

include h correct total hdistinct

/-- A turn in which the receiver is not deaf adds a frame that it opens. -/
theorem Lockstep.turn_log (hstarted : 1 ≤ w.sendingChain t.sender)
    (hlimit : (w.sentIn t.sender (w.sendingChain t.sender)).length < 2000)
    (hhears : ¬ w.Deaf t.sender.peer) : ∃ s o, (w.turn P t).log = .opened o :: .sealed s :: w.log ∧
      s.sender = t.sender ∧ o.receiver = t.sender.peer ∧ s.sealed = o.sealed := by
  obtain ⟨sealed, s, chain, run⟩ := h.exists_sealed total hstarted hlimit t.nonce t.plaintext
  obtain ⟨key, s', hdecrypted, -⟩ := h.delivered run hdistinct correct hhears t.own
  refine ⟨nextSealing P w t.sender chain t.plaintext sealed,
    ⟨t.sender.peer, some key, t.plaintext, sealed⟩, ?_, rfl, rfl, rfl⟩
  rw [turn_of_sealed run, World.step, decrypt_of_decrypted hdecrypted]
  split
  · rfl
  · rfl

/-- When the party ahead seals a frame and its peer is not deaf, the peer steps. -/
theorem Lockstep.turn_ahead (hsender : t.sender = w.ahead) (hhears : ¬ w.Deaf w.ahead.peer) :
    ∃ s sealing s' o, w.turn P t = (w.recordSealing s sealing).recordStep s' o ∧
      sealing.sender = w.ahead ∧ s.receiving = (w.session w.ahead).receiving ∧
      o.receiver = w.ahead.peer ∧ s'.ownRatchet = t.own := by
  obtain ⟨-, hnext⟩ := h.steps_ahead
  rw [← hsender] at hnext hhears ⊢
  -- a peer that hears has not been left behind, so neither has the chain run out
  have hlimit : (w.sentIn t.sender (w.sendingChain t.sender)).length < 2000 := by
    rw [Deaf, Party.peer_peer, ← hnext, not_or] at hhears
    omega
  obtain ⟨sealed, s, chain, run⟩ :=
    h.exists_sealed total (by omega) hlimit t.nonce t.plaintext
  obtain ⟨key, s', hdecrypted, hopened⟩ := h.delivered run hdistinct correct hhears t.own
  -- of a chain that the receiver has not stepped to, so the delivery is a step
  have hsteps : ((w.recordSealing s (nextSealing P w t.sender chain t.plaintext sealed)).session
      t.sender.peer).takesStep (Header.parse sealed.frame) = true := by
    generalize hstepped : ((w.recordSealing s (nextSealing P w t.sender chain t.plaintext
      sealed)).session t.sender.peer).takesStep (Header.parse sealed.frame) = stepped at hopened
    cases hopened with
    | skipped store origin passed stored => exact absurd passed (h.inReach_nextSealing run).1
    | current origin hchain ahead =>
      have hcurrent : w.sendingChain t.sender = w.steps t.sender.peer := hchain
      omega
    | step origin chain next ahead sendingKeys => rfl
  refine ⟨s, nextSealing P w t.sender chain t.plaintext sealed, s',
    ⟨t.sender.peer, some key, t.plaintext, sealed⟩, ?_, rfl, by rw [run.after], rfl,
    hdecrypted.ownRatchet_eq P hsteps⟩
  rw [turn_of_sealed run, World.step, decrypt_of_decrypted hdecrypted, if_pos hsteps]

end Hearing

end World

end Quietwire
