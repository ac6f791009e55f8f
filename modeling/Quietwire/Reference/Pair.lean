/-
  Quietwire.Reference.Pair

  One schedule of sends and deliveries, run by a pair of sessions and by a pair
  of reference parties.  Messages are delivered by their position in the order in
  which they were sent, always to the peer of their sender.

  Both pairs take their ratchet keys from the same lists of labels: a session is
  given the key of its next unused label in case it needs one.
-/
import Quietwire.Reference.Party
import Quietwire.Ratchet.Outstanding

namespace Quietwire

inductive Action (α : Type) where
  | send (sender : Party) (nonce : Nonce α) (plaintext : Plaintext α)
  | receive (message : Nat)

/-- What an action yields: the bytes of a frame, the bytes of a plaintext, or a failure. -/
inductive Outcome (α : Type) where
  | sent (frame : List α)
  | received (plaintext : List α)
  | failed
  deriving DecidableEq

variable {α σ label : Type} [DecidableEq α] [Octet α] (P : Primitives α σ) (secret : label → σ)

/-! ## The pair of sessions -/

omit [DecidableEq α] [Octet α] in
/-- The key that a session draws which has taken `steps` ratchet steps. -/
def nextRatchet (labels : List label) (steps : Nat) : Except CryptoError σ :=
  match labels[steps]? with
  | some next => .ok (secret next)
  | none => .error .rng

def World.act (labels : Party → List label) (w : World α σ) :
    Action α → World α σ × Outcome α
  | .send sender nonce plaintext =>
    match w.step P (.encrypt sender (.ok nonce) plaintext) with
    | (w', .sealed (.ok sealed)) => (w', .sent sealed.frame.toList)
    | (w', _) => (w', .failed)
  | .receive message =>
    match w.sealings.reverse[message]? with
    | none => (w, .failed)
    | some s =>
      let receiver := s.sender.peer
      match w.step P (.decrypt receiver s.sealed
          (nextRatchet secret (labels receiver) (w.steps receiver))) with
      | (w', .opened (.ok plaintext)) => (w', .received plaintext.toList)
      | (w', _) => (w', .failed)

/-! ## The pair of reference parties -/

namespace Reference

/-- A message as the schedule keeps it. -/
structure Message (α : Type) where
  sender : Party
  nonce : Nonce α
  frame : Bytes α

structure Pair (α σ label : Type) where
  party : Party → RatchetParty α σ label
  messages : List (Message α)

namespace Pair

/-- `ratchet_case` up to its first message. -/
def start (sharedKey : SecretKey α) (signedPrekey ownRatchet : σ) (labels : Party → List label) :
    Except Exception (Pair α σ label) :=
  let alice := RatchetParty.new sharedKey.toList ownRatchet (labels .initiator)
  let bob := RatchetParty.new sharedKey.toList signedPrekey (labels .responder)
  match RatchetParty.startSending P (x25519Public P bob.ownRatchet) alice with
  | .error e _ => .error e
  | .ok () alice => .ok {
      party := fun
        | .initiator => alice
        | .responder => bob
      messages := [] }

def act (p : Pair α σ label) : Action α → Pair α σ label × Outcome α
  | .send sender nonce plaintext =>
    match (p.party sender).encrypt P nonce.toList plaintext.toList with
    | .error _ r => ({ p with party := Function.update p.party sender r }, .failed)
    | .ok frame r =>
      ({ party := Function.update p.party sender r
         messages := p.messages ++ [⟨sender, nonce, frame⟩] }, .sent frame)
  | .receive message =>
    match p.messages[message]? with
    | none => (p, .failed)
    | some m =>
      let receiver := m.sender.peer
      match (p.party receiver).decrypt P secret m.nonce.toList m.frame with
      | .error _ r => ({ p with party := Function.update p.party receiver r }, .failed)
      | .ok plaintext r =>
        ({ p with party := Function.update p.party receiver r }, .received plaintext)

end Pair

end Reference

/-! ## Schedules -/

/-- An action of a schedule within the limits: the responder sends only after it has received
    something and nobody more than 2 000 frames in a chain, no frame is delivered twice, at
    most 1 000 others of its sender are outstanding when it is, and the receiver has a
    ratchet key left if the frame is of a chain that it has not seen. -/
def World.Permitted (labels : Party → List label) (w : World α σ) : Action α → Prop
  | .send sender _ _ => (sender = .responder → w.openedBy .responder ≠ []) ∧
      (w.sentIn sender (w.sendingChain sender)).length < 2000
  | .receive message => ∃ s, w.sealings.reverse[message]? = some s ∧
      s ∈ w.unopened s.sender.peer ∧ (w.others s.sender.peer s).length ≤ 1000 ∧
      (w.steps s.sender.peer < s.chain → w.steps s.sender.peer < (labels s.sender.peer).length)

/-- Every action of a schedule is permitted where it is taken. -/
def World.Schedule (labels : Party → List label) (w : World α σ) : List (Action α) → Prop
  | [] => True
  | action :: actions =>
    w.Permitted labels action ∧ Schedule labels (w.act P secret labels action).1 actions

end Quietwire
