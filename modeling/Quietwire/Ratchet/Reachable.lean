/-
  Quietwire.Ratchet.Reachable

  `World.Lockstep` holds when two sessions have just been started, every call
  preserves it, and so it holds in every state that a conversation reaches.
-/
import Quietwire.Ratchet.LockstepStepping

namespace Quietwire

variable {α σ : Type} [DecidableEq α] [Octet α] {P : Primitives α σ} {sharedKey : SecretKey α}
  {naming : Naming}

/-! ## The start -/

/-- The two sessions at the start of a conversation. -/
theorem World.start_eq_ok_iff {signedPrekey ownRatchet : σ} {w : World α σ} :
    World.start P sharedKey signedPrekey ownRatchet = .ok w ↔
      P.x25519 ownRatchet (publicKey P signedPrekey) ≠ zeroBytes ∧
      w = {
        session := fun
          | .initiator => {
              rootKey := rootKeyOf P sharedKey [ownRatchet, signedPrekey]
              ownRatchet
              remoteRatchet := some (publicKey P signedPrekey)
              sending := (startKeyOf P sharedKey [ownRatchet, signedPrekey]).map fun start =>
                chainAt P start 0
              receiving := none
              previousSendingLen := 0
              skipped := [] }
          | .responder => Session.responder sharedKey signedPrekey
        steps := fun _ => 0
        ratchets := [ownRatchet, signedPrekey]
        chainStart := fun
          | .initiator => startKeyOf P sharedKey [ownRatchet, signedPrekey]
          | .responder => none
        log := [] } := by
  unfold World.start Session.initiatorWith
  rw [kdfRoot_eq]
  -- the handshake fails where the key exchange comes out as zeros
  by_cases hzero : P.x25519 ownRatchet (publicKey P signedPrekey) = zeroBytes
  · simp [hzero, bind, Except.bind]
  · simp only [hzero, if_false, bind, Except.bind, Chain.start_eq, pure, Except.pure, ne_eq,
      not_false_eq_true, true_and, Except.ok.injEq]
    exact eq_comm

/-- A conversation can be started unless the signed prekey is a low-order point. -/
theorem World.exists_start {signedPrekey ownRatchet : σ}
    (hnonzero : P.x25519 ownRatchet (publicKey P signedPrekey) ≠ zeroBytes) :
    ∃ w, World.start P sharedKey signedPrekey ownRatchet = .ok w ∧
      w.ratchets = [ownRatchet, signedPrekey] ∧ w.steps = (fun _ => 0) ∧ w.log = [] :=
  ⟨_, World.start_eq_ok_iff.mpr ⟨hnonzero, rfl⟩, rfl, rfl, rfl⟩

namespace World

variable {w : World α σ}

theorem Lockstep.start {signedPrekey ownRatchet : σ}
    (hstart : World.start P sharedKey signedPrekey ownRatchet = .ok w) :
    Lockstep P sharedKey naming w := by
  obtain ⟨hnonzero, rfl⟩ := World.start_eq_ok_iff.mp hstart
  constructor
  case turn => exact .inl rfl
  case drawn => rfl
  case contributory =>
    intro own remote era heq
    obtain ⟨rfl, htail⟩ := List.cons_eq_cons.mp heq
    obtain ⟨rfl, -⟩ := List.cons_eq_cons.mp htail
    exact hnonzero
  case synced =>
    intro x
    -- each party's own view of the two ratchet keys
    cases x with
    | initiator => exact ⟨rfl, rfl, rfl, rfl, rfl, rfl, Nat.le_refl _, rfl⟩
    | responder => exact ⟨rfl, rfl, rfl, rfl, rfl, rfl, Nat.le_refl _, rfl⟩
  case genuine =>
    intro s hs
    cases hs
  case numbered =>
    intro x chain
    rfl
  case opened =>
    intro x o ho
    cases ho
  case openedOnce =>
    intro x
    exact List.nodup_nil
  case stored =>
    intro x e he
    cases x <;> cases he
  case storedOnce =>
    intro x
    cases x <;> exact List.nodup_nil

/-! ## One call -/

variable {x : Party} {sealed : SealedFrame α} {generated : Except CryptoError σ}
  {plaintext : Plaintext α} {key : Key α} {s' : Session α σ}

/-- How the frame `t` was opened: its key, the session left behind and whether there was a
    ratchet step. -/
inductive Opened (P : Primitives α σ) (sharedKey : SecretKey α) (naming : Naming)
    (w : World α σ) (x : Party) (sealed : SealedFrame α) (plaintext : Plaintext α)
    (t : Sealing α) : Key α → Session α σ → Bool → Prop
  | skipped {older newer : SkippedKeys α} {entry : SkippedKey α}
      (store : (w.session x).skipped = older ++ entry :: newer)
      (origin : w.Origin naming ⟨x, some entry.key, plaintext, sealed⟩ t)
      (passed : w.Passed x t) (stored : w.StoredFor x entry t) :
      Opened P sharedKey naming w x sealed plaintext t entry.key
        { w.session x with skipped := older ++ newer } false
  | current {key start : Key α}
      (origin : w.Origin naming ⟨x, some key, plaintext, sealed⟩ t)
      (chain : t.chain = w.steps x)
      (ahead : Ahead P sharedKey w x t (Header.parse sealed.frame) (w.steps x) (w.received x)
        start) :
      Opened P sharedKey naming w x sealed plaintext t key
        ((w.session x).advanceReceiving P (Header.parse sealed.frame)
          (chainAt P start (w.received x))) false
  | step {key receiving sending : Key α} {own : σ} {root : SecretKey α}
      (origin : w.Origin naming ⟨x, some key, plaintext, sealed⟩ t)
      (chain : t.chain = w.steps x + 1)
      (next : w.sendingChain x.peer = w.steps x + 1)
      (ahead : Ahead P sharedKey w x t (Header.parse sealed.frame) (w.steps x + 1) 0 receiving)
      (sendingKeys : kdfRoot P (rootKeyOf P sharedKey w.ratchets) own
        (Header.parse sealed.frame).ratchet = .ok (root, sending)) :
      Opened P sharedKey naming w x sealed plaintext t key
        (((w.session x).afterStep P (Header.parse sealed.frame) own root sending).advanceReceiving
          P (Header.parse sealed.frame) (chainAt P receiving 0)) true

theorem Opened.origin {stepped : Bool} {t : Sealing α}
    (h : Opened P sharedKey naming w x sealed plaintext t key s' stepped) :
    w.Origin naming ⟨x, some key, plaintext, sealed⟩ t := by
  cases h with
  | skipped store origin passed stored => exact origin
  | current origin chain ahead => exact origin
  | step origin chain next ahead sendingKeys => exact origin

/-- If the call opens a frame, the frame is one that the peer sealed and that was not
    opened before. -/
def Traced (P : Primitives α σ) (sharedKey : SecretKey α) (naming : Naming) (w : World α σ) :
    Event α σ → Prop
  | .encrypt _ _ _ => True
  | .decrypt x sealed generated => ∀ plaintext key s',
      Session.Decrypted P (w.session x) sealed generated plaintext key s' →
      ∃ t, Opened P sharedKey naming w x sealed plaintext t key s'
        ((w.session x).takesStep (Header.parse sealed.frame))

/-- A call that opens no frame but an unopened one keeps the sessions in lockstep. -/
theorem Lockstep.step (h : Lockstep P sharedKey naming w) (distinct : naming.Distinct w)
    (event : Event α σ) (htraced : w.Traced P sharedKey naming event) :
    Lockstep P sharedKey naming (w.step P event).1 := by
  cases hw : w.step P event with
  | mk w' output =>
    have htransition := w.step_transition (P := P) event
    rw [hw] at htransition
    cases htransition with
    | refusedSealing => exact h
    | refusedOpening => exact h
    | sealed run => exact h.recordSealing run
    | opened run stays =>
      -- in the current chain: from the store, or from the receiving chain
      obtain ⟨t, hopened⟩ := htraced _ _ _ run
      rw [stays] at hopened
      cases hopened with
      | skipped store origin passed stored =>
        exact h.recordOpening (h.advance_skipped store origin passed stored)
      | current origin chain ahead =>
        exact h.recordOpening (h.advance_current distinct origin chain ahead)
    | stepped run steps =>
      obtain ⟨t, hopened⟩ := htraced _ _ _ run
      rw [steps] at hopened
      cases hopened with
      | step origin chain next ahead sendingKeys =>
        exact h.recordStep (h.stride_step distinct origin chain next ahead rfl sendingKeys)

/-! ## Under an unforgeable AEAD -/

section Opening

variable (h : Lockstep P sharedKey .byKey w) (free : FreeKdf P)
  (fresh : FreshSharedKey P sharedKey)

include h free fresh

/-- A frame that opens was sealed by the peer and not opened before. -/
theorem Lockstep.opening (hunforged : w.Unforged P (.decrypt x sealed generated))
    (run : Session.Decrypted P (w.session x) sealed generated plaintext key s') :
    ∃ t, Opened P sharedKey .byKey w x sealed plaintext t key s'
      ((w.session x).takesStep (Header.parse sealed.frame)) := by
  obtain ⟨t, ht⟩ := hunforged.sealedAs run
  have hheader : Header.parse sealed.frame = t.header := by rw [Sealing.header, ht.sealed_eq]
  refine ⟨t, ?_⟩
  cases run with
  -- each path of `decrypt` tells where its key comes from
  | @skipped older newer entry store found first opens =>
    rw [Session.takesStep_of_stored store found first]
    have hentry : entry ∈ (w.session x).skipped := by
      rw [store]
      exact List.mem_append_right _ List.mem_cons_self
    obtain ⟨horigin, hpassed, hstored⟩ := h.origin_skipped free fresh ht hentry rfl
    exact .skipped store horigin hpassed hstored
  | @current chain missing remote receiving belowLimit notPassed near opens =>
    rw [Session.takesStep_of_remote remote]
    rw [ht.number_eq] at notPassed
    obtain ⟨horigin, hchain, start, rfl, hahead⟩ :=
      h.origin_current free fresh ht receiving notPassed (by rw [ht.number_eq])
    exact .current horigin hchain hahead
  | @step own middle root receiving sending missing remote closes receivingKeys generated
      sendingKeys near opens =>
    rw [Session.takesStep_of_ne missing remote]
    rw [hheader] at receivingKeys
    obtain ⟨horigin, hchain, hnext, hahead, rfl⟩ :=
      h.origin_step free fresh ht receivingKeys (by rw [ht.number_eq])
    exact .step horigin hchain hnext hahead sendingKeys

/-- The frame of a successful `decrypt` call. -/
theorem Lockstep.origin (hunforged : w.Unforged P (.decrypt x sealed generated))
    (run : Session.Decrypted P (w.session x) sealed generated plaintext key s') :
    ∃ t, w.Origin .byKey ⟨x, some key, plaintext, sealed⟩ t := by
  obtain ⟨t, hopened⟩ := h.opening free fresh hunforged run
  exact ⟨t, hopened.origin⟩

theorem Lockstep.traced (event : Event α σ) (hunforged : w.Unforged P event) :
    w.Traced P sharedKey .byKey event := by
  cases event with
  | encrypt sender random plaintext => trivial
  | decrypt receiver sealed generated =>
    intro plaintext key s' run
    exact h.opening free fresh hunforged run

end Opening

/-- In every state that a conversation reaches, the sessions are in lockstep. -/
theorem Lockstep.reaches {w₀ : World α σ} (free : FreeKdf P)
    (fresh : FreshSharedKey P sharedKey) (hreaches : World.Reaches P w₀ w)
    (h : Lockstep P sharedKey .byKey w₀) : Lockstep P sharedKey .byKey w :=
  hreaches.invariant (fun _ event hv hunforged =>
    hv.step (hv.distinct_byKey free fresh) event (hv.traced free fresh event hunforged)) h

end World

end Quietwire
