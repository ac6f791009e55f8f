/-
  Quietwire.Ratchet.Conversation

  Two sessions started from one shared key and one signed prekey, and the calls
  made on them in any order.  What a `decrypt` call is given is up to the
  environment: any nonce and any 452 bytes.

  Beside the sessions the state keeps what the calls did so far: the log of the
  calls that succeeded, the ratchet keys drawn, and how many ratchet steps each
  party took.  Nothing of that is read by a call.
-/
import Quietwire.Support.Machine
import Quietwire.Ratchet.SessionSpec
import Mathlib.Logic.Function.Basic

namespace Quietwire

inductive Party where
  | initiator
  | responder
  deriving DecidableEq, Repr

namespace Party

def peer : Party → Party
  | initiator => responder
  | responder => initiator

@[simp] theorem peer_peer (x : Party) : x.peer.peer = x := by
  cases x <;> rfl

@[simp] theorem peer_ne (x : Party) : x.peer ≠ x := by
  cases x <;> decide

@[simp] theorem ne_peer (x : Party) : x ≠ x.peer := (peer_ne x).symm

theorem eq_or_eq_peer (x y : Party) : y = x ∨ y = x.peer := by
  cases x <;> cases y <;> simp [peer]

end Party

/-- A successful `encrypt` call. -/
structure Sealing (α : Type) where
  sender : Party
  /-- Which of its sender's sending chains the frame is in, counted from 1. -/
  chain : Nat
  /-- The message key that was passed to `aead::seal`. -/
  key : Option (Key α)
  plaintext : Plaintext α
  sealed : SealedFrame α

/-- A successful `decrypt` call. -/
structure Opening (α : Type) where
  receiver : Party
  /-- The message key that was passed to `aead::open`. -/
  key : Option (Key α)
  plaintext : Plaintext α
  sealed : SealedFrame α

inductive Record (α : Type) where
  | sealed (sealing : Sealing α)
  | opened (opening : Opening α)

structure World (α σ : Type) where
  session : Party → Session α σ
  /-- Successful ratchet steps of each party. -/
  steps : Party → Nat
  /-- The private ratchet keys of both parties, newest first. -/
  ratchets : List σ
  /-- The key that each party's sending chain started from. -/
  chainStart : Party → Option (Key α)
  /-- The successful calls, newest first. -/
  log : List (Record α)

/-- One call, with everything its caller and the RNG choose. -/
inductive Event (α σ : Type) where
  | encrypt (sender : Party) (random : Except CryptoError (Nonce α)) (plaintext : Plaintext α)
  | decrypt (receiver : Party) (sealed : SealedFrame α) (generated : Except CryptoError σ)

/-- What a call returned. -/
inductive Output (α : Type) where
  | sealed (result : Except Failure (SealedFrame α))
  | opened (result : Except Failure (Plaintext α))

def Output.isFailedDecrypt {α : Type} : Output α → Bool
  | .opened (.error _) => true
  | _ => false

section Ghost

variable {α σ : Type} [DecidableEq α] [Octet α] (P : Primitives α σ)

namespace Session

omit [DecidableEq α] in
/-- The message key of the next frame this session seals. -/
def nextSendingKey (s : Session α σ) : Option (Key α) :=
  s.sending.map fun chain => (kdfChain P chain.key).1

/-- The message key under which this session tries a frame with this header. -/
def messageKeyFor (s : Session α σ) (header : Header α) : Option (Key α) :=
  match s.skipped.position header with
  | some index => s.skipped.key index
  | none =>
    if s.remoteRatchet = some header.ratchet then
      match s.receiving with
      | none => none
      | some chain =>
        ((Cursor.at chain).messageKey P header.messageNumber).toOption.map Prod.fst
    else
      match kdfRoot P s.rootKey s.ownRatchet header.ratchet with
      | .error _ => none
      | .ok (_, receiving) =>
        ((Cursor.new receiving).messageKey P header.messageNumber).toOption.map Prod.fst

/-- Whether a frame with this header takes the ratchet-step path. -/
def takesStep (s : Session α σ) (header : Header α) : Bool :=
  s.skipped.position header = none ∧ s.remoteRatchet ≠ some header.ratchet

end Session

namespace World

/-- How many sending chains a party has started. -/
def sendingChain (w : World α σ) : Party → Nat
  | .initiator => w.steps .initiator + 1
  | .responder => w.steps .responder

omit [DecidableEq α] [Octet α] in
/-- A session sealed a frame. -/
def recordSealing (w : World α σ) (s : Session α σ) (sealing : Sealing α) : World α σ :=
  { w with
    session := Function.update w.session sealing.sender s
    log := .sealed sealing :: w.log }

omit [DecidableEq α] [Octet α] in
/-- A session opened a frame without a ratchet step. -/
def recordOpening (w : World α σ) (s : Session α σ) (opening : Opening α) : World α σ :=
  { w with
    session := Function.update w.session opening.receiver s
    log := .opened opening :: w.log }

omit [DecidableEq α] [Octet α] in
/-- A session opened a frame and took a ratchet step. -/
def recordStep (w : World α σ) (s : Session α σ) (opening : Opening α) : World α σ where
  session := Function.update w.session opening.receiver s
  steps := Function.update w.steps opening.receiver (w.steps opening.receiver + 1)
  ratchets := s.ownRatchet :: w.ratchets
  chainStart := Function.update w.chainStart opening.receiver (s.sending.map Chain.key)
  log := .opened opening :: w.log

def encrypt (w : World α σ) (sender : Party) (random : Except CryptoError (Nonce α))
    (plaintext : Plaintext α) : World α σ × Output α :=
  match Session.encrypt P random plaintext (w.session sender) with
  | .error failure s =>
    ({ w with session := Function.update w.session sender s }, .sealed (.error failure))
  | .ok sealed s =>
    let sealing := {
      sender
      chain := w.sendingChain sender
      key := (w.session sender).nextSendingKey P
      plaintext
      sealed }
    (w.recordSealing s sealing, .sealed (.ok sealed))

def decrypt (w : World α σ) (receiver : Party) (sealed : SealedFrame α)
    (generated : Except CryptoError σ) : World α σ × Output α :=
  match Session.decrypt P sealed generated (w.session receiver) with
  | .error failure s =>
    ({ w with session := Function.update w.session receiver s }, .opened (.error failure))
  | .ok plaintext s =>
    let header := Header.parse sealed.frame
    let opening := {
      receiver
      key := (w.session receiver).messageKeyFor P header
      plaintext
      sealed }
    (if (w.session receiver).takesStep header then w.recordStep s opening
      else w.recordOpening s opening,
      .opened (.ok plaintext))

def step (w : World α σ) : Event α σ → World α σ × Output α
  | .encrypt sender random plaintext => w.encrypt P sender random plaintext
  | .decrypt receiver sealed generated => w.decrypt P receiver sealed generated

/-- An initiator and a responder started from the same shared key and signed prekey. -/
def start (sharedKey : SecretKey α) (signedPrekey ownRatchet : σ) :
    Except Error (World α σ) := do
  let initiator ←
    Session.initiatorWith P sharedKey (publicKey P signedPrekey) ownRatchet
  return {
    session := fun
      | .initiator => initiator
      | .responder => Session.responder sharedKey signedPrekey
    steps := fun _ => 0
    ratchets := [ownRatchet, signedPrekey]
    chainStart := fun
      | .initiator => initiator.sending.map Chain.key
      | .responder => none
    log := [] }

/-- The AEAD opened nothing here that was not sealed: a frame that opens under a key
    the receiving session tries was sealed by one of the two sessions under that key,
    with that nonce and associated data. -/
def Unforged (w : World α σ) : Event α σ → Prop
  | .encrypt _ _ _ => True
  | .decrypt receiver sealed _ =>
    ∀ key plaintext,
      (w.session receiver).messageKeyFor P (Header.parse sealed.frame) = some key →
      Opens P key sealed plaintext →
      ∃ s : Sealing α, .sealed s ∈ w.log ∧ s.key = some key ∧ s.sealed.nonce = sealed.nonce ∧
        s.sealed.aad = sealed.aad ∧ s.sealed.ciphertext = sealed.ciphertext ∧
        s.plaintext = plaintext

/-- Reached by calls on arbitrary frames, the AEAD being unforgeable. -/
abbrev Reaches : World α σ → World α σ → Prop := Machine.Reaches (step P) (Unforged P)

end World

end Ghost

end Quietwire
