/-
  Quietwire.Fuzz.RatchetSession

  The target `ratchet_session`: a whole conversation driven by a peer, with frames
  reordered, lost, duplicated and tampered with.
-/
import Quietwire.Fuzz.Sessions

namespace Quietwire
namespace Fuzz

/-- `MAX_ACTIONS`. -/
abbrev maxActions : Nat := 256

/-- `SEALED_LEN`. -/
abbrev sealedLen : Nat := nonceLen + frameLen

/-- One step of a conversation.  Frames never picked by a delivery are lost; frames picked
    again are duplicates. -/
inductive Action where
  | send (sender : Party)
  | deliver (receiver : Party) (pick : UInt8)
  | tamper (receiver : Party) (pick : UInt8) (at_ : UInt16) (xor : UInt8)
  deriving DecidableEq, Repr

variable {α σ : Type}

/-- `usize::from(at) % SEALED_LEN`. -/
def byteAt (at_ : UInt16) : Fin sealedLen := ⟨at_.toNat % sealedLen, Nat.mod_lt _ (by decide)⟩

/-- `byte.checked_sub(NONCE_LEN)` is an offset in the frame. -/
theorem sub_nonceLen_lt (byte : Fin sealedLen) (h : ¬ byte.val < nonceLen) :
    byte.val - nonceLen < frameLen := by
  have hlt : byte.val < nonceLen + frameLen := byte.isLt
  omega

/-- The frame with one of its bytes, those of the nonce first, changed. -/
def tampered [Octet α] (sealed : SealedFrame α) (byte : Fin sealedLen) (xor : UInt8) :
    SealedFrame α :=
  if h : byte.val < nonceLen then { sealed with nonce := xorAt sealed.nonce byte.val h xor }
  else
    { sealed with frame := xorAt sealed.frame (byte.val - nonceLen) (sub_nonceLen_lt byte h) xor }

/-- A changed byte is in the nonce or in the frame. -/
theorem tampered_cases [Octet α] (sealed : SealedFrame α) (byte : Fin sealedLen) {xor : UInt8}
    (hxor : xor ≠ 0) :
    ((tampered sealed byte xor).frame = sealed.frame ∧
        (tampered sealed byte xor).nonce ≠ sealed.nonce) ∨
      ((tampered sealed byte xor).nonce = sealed.nonce ∧
        (tampered sealed byte xor).frame ≠ sealed.frame) := by
  by_cases h : byte.val < nonceLen
  · rw [tampered, dif_pos h]
    exact .inl ⟨rfl, xorAt_ne _ h hxor⟩
  · rw [tampered, dif_neg h]
    exact .inr ⟨rfl, xorAt_ne _ (sub_nonceLen_lt byte h) hxor⟩

namespace Conversation

variable (c : Conversation α σ)

/-- The frame that is picked among those in flight to `receiver`. -/
def index (receiver : Party) (pick : UInt8) : Option Nat :=
  let len := (c.inbox receiver).length
  if len > 0 then some (pick.toNat % len) else none

variable [DecidableEq α] [Octet α] (P : Primitives α σ)

def deliver (receiver : Party) (pick : UInt8) (random : Random α σ) :
    Except Panic (Conversation α σ) :=
  match c.index receiver pick with
  | none => return c
  | some index => c.deliverAt P receiver index random

def tamper (receiver : Party) (pick : UInt8) (at_ : UInt16) (xor : UInt8) (random : Random α σ) :
    Except Panic (Conversation α σ) :=
  match c.index receiver pick with
  | none => return c
  | some index =>
    if xor = 0 then return c
    else do
      let byte := byteAt at_
      let some frame := (c.inbox receiver)[index]? | throw .outOfRange
      let sealed := tampered frame.sealed byte xor
      let (result, session) ←
        call (Session.decrypt P sealed (.ok random.ratchet)) (c.session receiver)
      match result with
      | .error _ => return c.setSession receiver session
      | .ok _ => throw .tamperedOpened

def apply (random : Random α σ) : Action → Except Panic (Conversation α σ)
  | .send sender => c.send P sender random
  | .deliver receiver pick => c.deliver P receiver pick random
  | .tamper receiver pick at_ xor => c.tamper P receiver pick at_ xor random

/-- `for action in actions`. -/
def applyAll : Conversation α σ → List (Action × Random α σ) → Except Panic (Conversation α σ)
  | c, [] => return c
  | c, (action, random) :: rest => do (← c.apply P random action).applyAll rest

end Conversation

/-- The target, with the keys of the two sessions and what the RNG gives each step. -/
def ratchetSession [DecidableEq α] [Octet α] (P : Primitives α σ) (signedPrekey ownRatchet : σ)
    (actions : List (Action × Random α σ)) : Except Panic Unit := do
  let conversation ← Conversation.new P signedPrekey ownRatchet
  let _ ← conversation.applyAll P (actions.take maxActions)
  return ()

end Fuzz
end Quietwire
