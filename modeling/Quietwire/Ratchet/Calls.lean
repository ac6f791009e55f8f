/-
  Quietwire.Ratchet.Calls

  One session on its own, and the calls made on it in any order.  A `decrypt` call
  is given any nonce and any 452 bytes, so that whatever a peer seals for the
  session, honest or not, is among what is considered here.
-/
import Quietwire.Ratchet.Transition

namespace Quietwire

/-- One call on a session, with everything its caller and the RNG choose. -/
inductive Call (α σ : Type) where
  | encrypt (random : Option (Nonce α)) (plaintext : Plaintext α)
  | decrypt (sealed : SealedFrame α) (random : Option σ)

variable {α σ : Type} [DecidableEq α] [Octet α] (P : Primitives α σ)

namespace Session

/-- The session after a call, and what the call returned. -/
def call (s : Session α σ) : Call α σ → Session α σ × Output α
  | .encrypt random plaintext =>
    match encrypt P (rngFill random) plaintext s with
    | .ok sealed s' => (s', .sealed (.ok sealed))
    | .error failure s' => (s', .sealed (.error failure))
  | .decrypt sealed random =>
    match decrypt P sealed (rngFill random) s with
    | .ok plaintext s' => (s', .opened (.ok plaintext))
    | .error failure s' => (s', .opened (.error failure))

/-- A session as `initiator` or `responder` returns it. -/
inductive Started : Session α σ → Prop
  | initiator {sharedKey : SecretKey α} {remoteRatchet : PublicKey α} {ownRatchet : σ}
      {s : Session α σ} (run : initiatorWith P sharedKey remoteRatchet ownRatchet = .ok s) :
      Started s
  | responder (sharedKey : SecretKey α) (signedPrekey : σ) :
      Started (responder sharedKey signedPrekey)

/-- Reached by calls on arbitrary frames. -/
abbrev Reaches : Session α σ → Session α σ → Prop := Machine.Reaches (call P) fun _ _ => True

/-! ## What a call does -/

/-- What a call does to a session, and what it returns. -/
inductive Effect (s : Session α σ) : Call α σ → Session α σ → Output α → Prop
  | refusedSealing {random : Option (Nonce α)} {plaintext : Plaintext α} {failure : Failure}
      (run : encrypt P (rngFill random) plaintext s = .error failure s) :
      Effect s (.encrypt random plaintext) s (.sealed (.error failure))
  | refusedOpening {sealed : SealedFrame α} {random : Option σ} {failure : Failure}
      (run : decrypt P sealed (rngFill random) s = .error failure s) :
      Effect s (.decrypt sealed random) s (.opened (.error failure))
  | sealed {nonce : Nonce α} {plaintext : Plaintext α} {sealed : SealedFrame α}
      {s' : Session α σ} {chain : Chain α} (run : Sealed P nonce plaintext s sealed s' chain) :
      Effect s (.encrypt (some nonce) plaintext) s' (.sealed (.ok sealed))
  | opened {sealed : SealedFrame α} {random : Option σ} {plaintext : Plaintext α} {key : Key α}
      {s' : Session α σ} (run : Decrypted P s sealed (rngFill random) plaintext key s') :
      Effect s (.decrypt sealed random) s' (.opened (.ok plaintext))

variable {P}

omit [DecidableEq α] in
theorem encrypt_eq_ok_iff {random : Option (Nonce α)} {plaintext : Plaintext α}
    {s s' : Session α σ} {sealed : SealedFrame α} :
    encrypt P (rngFill random) plaintext s = .ok sealed s' ↔
      ∃ nonce chain, random = some nonce ∧ Sealed P nonce plaintext s sealed s' chain := by
  cases random with
  | none =>
    simp [encrypt, rngFill, Transaction.bind_eq_ok_iff]
  | some nonce =>
    show encryptWith P nonce plaintext s = .ok sealed s' ↔ _
    rw [encryptWith_eq_ok_iff]
    simp

theorem call_effect (s : Session α σ) (call : Call α σ) :
    Effect P s call (s.call P call).1 (s.call P call).2 := by
  cases call with
  | encrypt random plaintext =>
    rw [Session.call]
    cases hrun : encrypt P (rngFill random) plaintext s with
    | ok sealed s' =>
      obtain ⟨nonce, chain, rfl, hsealed⟩ := encrypt_eq_ok_iff.mp hrun
      exact .sealed hsealed
    | error failure s' =>
      obtain rfl := encrypt_atomic P _ _ _ _ _ hrun
      exact .refusedSealing hrun
  | decrypt sealed random =>
    rw [Session.call]
    cases hrun : decrypt P sealed (rngFill random) s with
    | ok plaintext s' =>
      obtain ⟨key, hdecrypted⟩ := (decryptWith_eq_ok_iff P _ _ _ _ _).mp hrun
      exact .opened hdecrypted
    | error failure s' =>
      obtain rfl := decrypt_atomic P _ _ _ _ _ hrun
      exact .refusedOpening hrun

/-! ## The start -/

/-- What the two kinds of new sessions have in common. -/
theorem Started.fresh {s : Session α σ} (h : Started P s) :
    s.receiving = none ∧ s.previousSendingLen = 0 ∧ s.skipped = [] ∧
      ∀ chain, s.sending = some chain → chain.next = 0 := by
  cases h with
  | @initiator sharedKey remoteRatchet ownRatchet s run =>
    rw [initiatorWith, kdfRoot_eq] at run
    by_cases hzero : P.x25519 ownRatchet remoteRatchet = zeroBytes
    · simp [hzero, bind, Except.bind] at run
    · simp only [hzero, if_false, bind, Except.bind, Chain.start_eq, pure, Except.pure,
        Except.ok.injEq] at run
      subst run
      refine ⟨rfl, rfl, rfl, ?_⟩
      rintro chain ⟨⟩
      rfl
  | responder sharedKey signedPrekey =>
    refine ⟨rfl, rfl, rfl, ?_⟩
    rintro chain ⟨⟩

/-! ## Successful calls -/

theorem call_of_sealed {s s' : Session α σ} {nonce : Nonce α}
    {plaintext : Plaintext α} {sealed : SealedFrame α} {chain : Chain α}
    (run : Sealed P nonce plaintext s sealed s' chain) :
    s.call P (.encrypt (some nonce) plaintext) = (s', .sealed (.ok sealed)) := by
  have hrun := encrypt_eq_ok_iff.mpr ⟨nonce, chain, rfl, run⟩
  rw [call, hrun]

/-- A frame opens in some call: what the RNG would have answered matters in a ratchet step
    only, and there it gave a key. -/
theorem exists_call_of_decrypted {s s' : Session α σ} {sealed : SealedFrame α}
    {generated : Except CryptoError σ} {plaintext : Plaintext α} {key : Key α}
    (run : Decrypted P s sealed generated plaintext key s') :
    ∃ random, s.call P (.decrypt sealed random) = (s', .opened (.ok plaintext)) := by
  have hrandom : ∃ random, Decrypted P s sealed (rngFill random) plaintext key s' := by
    cases run with
    | skipped store found first opens => exact ⟨none, .skipped store found first opens⟩
    | current missing remote receiving belowLimit notPassed near opens =>
      exact ⟨none, .current missing remote receiving belowLimit notPassed near opens⟩
    | @step own middle root receiving sending missing remote closes receivingKeys generated
        sendingKeys near opens =>
      exact ⟨some own, .step missing remote closes receivingKeys rfl sendingKeys near opens⟩
  obtain ⟨random, hdecrypted⟩ := hrandom
  refine ⟨random, ?_⟩
  have hrun : decrypt P sealed (rngFill random) s = .ok plaintext s' :=
    (decryptWith_eq_ok_iff P _ _ _ _ _).mpr ⟨key, hdecrypted⟩
  rw [call, hrun]

end Session

/-! ## The sessions of a conversation -/

namespace World

variable {P}

/-- A conversation starts with new sessions. -/
theorem started_of_start {sharedKey : SecretKey α} {signedPrekey ownRatchet : σ} {w : World α σ}
    (hstart : start P sharedKey signedPrekey ownRatchet = .ok w) (x : Party) :
    (w.session x).Started P := by
  unfold start at hstart
  cases hinitiator : Session.initiatorWith P sharedKey (publicKey P signedPrekey) ownRatchet with
  | error e =>
    rw [hinitiator] at hstart
    cases hstart
  | ok initiator =>
    rw [hinitiator] at hstart
    cases hstart
    cases x with
    | initiator => exact .initiator hinitiator
    | responder => exact .responder _ _

/-- One event of a conversation is a call on a session, or nothing, for each session. -/
theorem session_step (w : World α σ) (event : Event α σ) (x : Party) :
    (w.step P event).1.session x = w.session x ∨
      ∃ call, (w.step P event).1.session x = ((w.session x).call P call).1 := by
  cases hw : w.step P event with
  | mk w' output =>
    have htransition := w.step_transition (P := P) event
    rw [hw] at htransition
    cases htransition with
    | refusedSealing => exact .inl rfl
    | refusedOpening => exact .inl rfl
    | @sealed sender nonce plaintext sealed s chain run =>
      -- only the session of the party that acts changes
      rcases Party.eq_or_eq_peer sender x with rfl | rfl
      · refine .inr ⟨.encrypt (some nonce) plaintext, ?_⟩
        rw [Session.call_of_sealed run]
        exact session_recordSealing_self _ _ _
      · exact .inl (session_recordSealing_of_ne _ _ _ (Party.peer_ne sender))
    | @opened receiver sealed generated plaintext key s run stays =>
      rcases Party.eq_or_eq_peer receiver x with rfl | rfl
      · obtain ⟨random, hcall⟩ := Session.exists_call_of_decrypted run
        refine .inr ⟨.decrypt sealed random, ?_⟩
        rw [hcall]
        exact session_recordOpening_self _ _ _
      · exact .inl (session_recordOpening_of_ne _ _ _ (Party.peer_ne receiver))
    | @stepped receiver sealed generated plaintext key s run steps =>
      rcases Party.eq_or_eq_peer receiver x with rfl | rfl
      · obtain ⟨random, hcall⟩ := Session.exists_call_of_decrypted run
        refine .inr ⟨.decrypt sealed random, ?_⟩
        rw [hcall]
        exact session_recordStep_self _ _ _
      · exact .inl (session_recordStep_of_ne _ _ _ (Party.peer_ne receiver))

/-- What a session goes through in a conversation is a run of calls on it. -/
theorem session_reaches {allowed : World α σ → Event α σ → Prop} {w₀ w : World α σ}
    (hreaches : Machine.Reaches (step P) allowed w₀ w) (x : Party) :
    Session.Reaches P (w₀.session x) (w.session x) := by
  induction hreaches with
  | refl => exact .refl
  | @tail v event _ _ ih =>
    rcases v.session_step (P := P) event x with hsame | ⟨call, hcall⟩
    · rw [hsame]
      exact ih
    · rw [hcall]
      exact ih.tail trivial

/-- The call on the session of a party that seals a frame. -/
theorem call_of_sealed {w v : World α σ} {x : Party} {nonce : Nonce α} {plaintext : Plaintext α}
    {sealed : SealedFrame α}
    (h : w.step P (.encrypt x (.ok nonce) plaintext) = (v, .sealed (.ok sealed))) :
    (w.session x).call P (.encrypt (some nonce) plaintext)
      = (v.session x, .sealed (.ok sealed)) := by
  have hrun : Session.encrypt P (rngFill (some nonce)) plaintext (w.session x)
      = .ok sealed (v.session x) := encrypt_eq_ok h
  rw [Session.call, hrun]

/-- The call on the session of a party that opens a frame. -/
theorem call_of_opened {w v : World α σ} {x : Party} {sealed : SealedFrame α} {own : σ}
    {plaintext : Plaintext α}
    (h : w.step P (.decrypt x sealed (.ok own)) = (v, .opened (.ok plaintext))) :
    (w.session x).call P (.decrypt sealed (some own))
      = (v.session x, .opened (.ok plaintext)) := by
  have hrun : Session.decrypt P sealed (rngFill (some own)) (w.session x)
      = .ok plaintext (v.session x) := decrypt_eq_ok h
  rw [Session.call, hrun]

end World

end Quietwire
