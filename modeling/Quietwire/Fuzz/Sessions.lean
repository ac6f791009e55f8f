/-
  Quietwire.Fuzz.Sessions

  What the fuzz targets of the ratchet share: the two sessions of a conversation,
  the frames in flight to each party, and the steps of a conversation with the
  assertions made along the way.  A step that makes an assertion fail is a panic.
-/
import Quietwire.Ratchet.WorkBounds

namespace Quietwire
namespace Fuzz

/-- How a target fails. -/
inductive Panic where
  /-- `assert_eq!(result.err(), Some(Error::SendingBlocked))`. -/
  | notBlocked
  /-- "a party that has received can send" -/
  | cannotSend
  /-- "a duplicate opened", also when the duplicate is refused for another reason. -/
  | duplicateOpened
  /-- "a genuine frame opens" -/
  | genuineRefused
  /-- "a genuine frame opened to the wrong plaintext" -/
  | wrongPlaintext
  /-- "a tampered frame opened" -/
  | tamperedOpened
  /-- "valid prekey" -/
  | invalidPrekey
  /-- "a frame the peer did not send decrypted" -/
  | foreignOpened
  /-- "the genuine frame must decrypt exactly once" -/
  | notExactlyOnce
  /-- "the session no longer accepts genuine frames" -/
  | sessionLost
  /-- "unexpected {error:?}" -/
  | unexpected
  /-- An index out of range. -/
  | outOfRange
  /-- An addition that overflows. -/
  | overflow
  /-- A panic in the code under test. -/
  | call
  deriving DecidableEq, Repr

variable {α σ : Type}

/-- A call on a session: what it returns, and the session it leaves. -/
def call {β : Type} (operation : SessionM α σ β) (session : Session α σ) :
    Except Panic (Except Error β × Session α σ) :=
  match operation session with
  | .ok b s => .ok (.ok b, s)
  | .error (.error e) s => .ok (.error e, s)
  | .error .panic _ => .error .call

@[simp] theorem call_of_ok {β : Type} {operation : SessionM α σ β} {session s : Session α σ} {b : β}
    (h : operation session = .ok b s) : call operation session = .ok (.ok b, s) := by
  rw [call, h]

@[simp] theorem call_of_error {β : Type} {operation : SessionM α σ β} {session s : Session α σ}
    {e : Error} (h : operation session = .error (.error e) s) :
    call operation session = .ok (.error e, s) := by
  rw [call, h]

/-! ## The two sessions -/

/-- The two sessions of a conversation, as X3DH would have started them. -/
structure Sessions (α σ : Type) where
  /-- The initiator, which can send at once. -/
  alice : Session α σ
  /-- The responder, which can send once it has received a frame. -/
  bob : Session α σ

section Start

variable [DecidableEq α] [Octet α] (P : Primitives α σ)

omit [DecidableEq α] in
/-- `SHARED_KEY`. -/
def sharedKey : SecretKey α := Vector.replicate 32 (Octet.ofByte 0x42)

/-- Starts both sessions from the fixed shared key and a fresh signed prekey. -/
def Sessions.start (signedPrekey ownRatchet : σ) : Except Panic (Sessions α σ) :=
  match Session.initiatorWith P sharedKey (publicKey P signedPrekey) ownRatchet with
  | .ok alice => .ok { alice, bob := Session.responder sharedKey signedPrekey }
  | .error _ => .error .invalidPrekey

end Start

/-! ## Conversations -/

structure InFlight (α : Type) where
  sealed : SealedFrame α
  plaintext : Plaintext α
  opened : Bool

/-- Alice is the initiator and Bob the responder. -/
structure Conversation (α σ : Type) where
  alice : Session α σ
  bob : Session α σ
  toAlice : List (InFlight α)
  toBob : List (InFlight α)
  bobHasReceived : Bool
  sent : UInt32

/-- What the RNG gives one step of a conversation, if it is asked. -/
structure Random (α σ : Type) where
  nonce : Nonce α
  ratchet : σ

namespace Conversation

variable (c : Conversation α σ)

def session : Party → Session α σ
  | .initiator => c.alice
  | .responder => c.bob

def inbox : Party → List (InFlight α)
  | .initiator => c.toAlice
  | .responder => c.toBob

/-- `*self.session(party) = session`. -/
def setSession (party : Party) (session : Session α σ) : Conversation α σ :=
  match party with
  | .initiator => { c with alice := session }
  | .responder => { c with bob := session }

/-- `*self.inbox(party) = inbox`. -/
def setInbox (party : Party) (inbox : List (InFlight α)) : Conversation α σ :=
  match party with
  | .initiator => { c with toAlice := inbox }
  | .responder => { c with toBob := inbox }

section Fields

variable (party other : Party) (s : Session α σ) (list : List (InFlight α))

@[simp] theorem session_setSession :
    (c.setSession party s).session other = if other = party then s else c.session other := by
  cases party <;> cases other <;> rfl

@[simp] theorem inbox_setSession : (c.setSession party s).inbox other = c.inbox other := by
  cases party <;> cases other <;> rfl

@[simp] theorem bobHasReceived_setSession :
    (c.setSession party s).bobHasReceived = c.bobHasReceived := by
  cases party <;> rfl

@[simp] theorem sent_setSession : (c.setSession party s).sent = c.sent := by
  cases party <;> rfl

@[simp] theorem session_setInbox : (c.setInbox party list).session other = c.session other := by
  cases party <;> cases other <;> rfl

@[simp] theorem inbox_setInbox :
    (c.setInbox party list).inbox other = if other = party then list else c.inbox other := by
  cases party <;> cases other <;> rfl

@[simp] theorem bobHasReceived_setInbox :
    (c.setInbox party list).bobHasReceived = c.bobHasReceived := by
  cases party <;> rfl

@[simp] theorem sent_setInbox : (c.setInbox party list).sent = c.sent := by
  cases party <;> rfl

end Fields

section Steps

variable [DecidableEq α] [Octet α] (P : Primitives α σ)

omit c in
def new (signedPrekey ownRatchet : σ) : Except Panic (Conversation α σ) := do
  let { alice, bob } ← Sessions.start P signedPrekey ownRatchet
  return {
    alice
    bob
    toAlice := []
    toBob := []
    bobHasReceived := false
    sent := 0 }

omit [DecidableEq α] c in
def numberedPlaintext (number : UInt32) : Plaintext α :=
  write (Vector.replicate plaintextLen (Octet.ofByte 0)) 0 (toLeBytes number : Vector α 4)

omit [DecidableEq α] in
def send (sender : Party) (random : Random α σ) : Except Panic (Conversation α σ) := do
  let plaintext := numberedPlaintext c.sent
  let some sent := checkedAdd c.sent 1 | throw .overflow
  let (result, session) ← call (Session.encrypt P (.ok random.nonce) plaintext) (c.session sender)
  let c := { c with sent }.setSession sender session
  if sender = .responder ∧ c.bobHasReceived = false then
    match result with
    | .error .sendingBlocked => return c
    | _ => throw .notBlocked
  else
    match result with
    | .error _ => throw .cannotSend
    | .ok sealed =>
      return c.setInbox sender.peer
        (c.inbox sender.peer ++ [{ sealed, plaintext, opened := false }])

/-- `deliver`, once the frame has been picked. -/
def deliverAt (receiver : Party) (index : Nat) (random : Random α σ) :
    Except Panic (Conversation α σ) := do
  let some frame := (c.inbox receiver)[index]? | throw .outOfRange
  let (result, session) ←
        call (Session.decrypt P frame.sealed (.ok random.ratchet)) (c.session receiver)
  let c := c.setSession receiver session
  if frame.opened then
    match result with
    | .error (.crypto .authentication) => return c
    | _ => throw .duplicateOpened
  else
    match result with
    | .error _ => throw .genuineRefused
    | .ok plaintext =>
      if plaintext ≠ frame.plaintext then throw .wrongPlaintext
      return { c.setInbox receiver ((c.inbox receiver).set index { frame with opened := true }) with
        bobHasReceived := c.bobHasReceived || receiver = .responder }

end Steps

end Conversation

end Fuzz
end Quietwire
