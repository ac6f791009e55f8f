/-
  Quietwire.Fuzz.RatchetHeader

  The target `ratchet_header`: one frame of any bytes on a live session, made from
  the genuine one or not.
-/
import Quietwire.Fuzz.Sessions

namespace Quietwire
namespace Fuzz

variable {α σ : Type}

/-- One byte of an input XOR-ed with a value. -/
structure Edit where
  at_ : UInt16
  xor : UInt8
  deriving DecidableEq, Repr

/-- `bytes` with every edit applied, wrapping positions past the end. -/
def edited [Octet α] {n : Nat} (hn : 0 < n) (bytes : Vector α n) (edits : List Edit) :
    Vector α n :=
  edits.foldl (fun bytes edit => xorAt bytes (edit.at_.toNat % n) (Nat.mod_lt _ hn) edit.xor) bytes

inductive Bytes (α : Type) (n : Nat) where
  | genuine (edits : List Edit)
  | raw (bytes : Vector α n)

def Bytes.resolve [Octet α] {n : Nat} (hn : 0 < n) (genuine : Vector α n) :
    Bytes α n → Vector α n
  | .genuine edits => edited hn genuine edits
  | .raw bytes => bytes

inductive FrameBody (α : Type) where
  | whole (bytes : Bytes α frameLen)
  | reheadered (ratchetKey : Option (Vector α publicKeyLen)) (previousChainLen : UInt32)
      (messageNumber : UInt32)

/-- `u32::to_be_bytes`. -/
def toBeBytes [Octet α] (n : UInt32) : Vector α 4 := (toLeBytes n).reverse

def FrameBody.resolve [Octet α] (genuine : Frame α) : FrameBody α → Frame α
  | .whole bytes => bytes.resolve (by decide) genuine
  | .reheadered ratchetKey previousChainLen messageNumber =>
    let frame := match ratchetKey with
      | some bytes => write genuine 0 bytes
      | none => genuine
    -- a header has its numbers little-endian, but any number will do here
    let frame := write frame publicKeyLen (toBeBytes previousChainLen : Vector α 4)
    write frame (publicKeyLen + 4) (toBeBytes messageNumber : Vector α 4)

structure Input (α : Type) where
  nonce : Bytes α nonceLen
  frame : FrameBody α

/-- The frame that the peer sends in place of the genuine one. -/
def Input.peer [Octet α] (input : Input α) (genuine : SealedFrame α) : SealedFrame α where
  nonce := input.nonce.resolve (by decide) genuine.nonce
  frame := input.frame.resolve genuine.frame

variable [DecidableEq α] [Octet α] (P : Primitives α σ)

omit [DecidableEq α] in
/-- `PLAINTEXT`. -/
def plaintext : Plaintext α := Vector.replicate plaintextLen (Octet.ofByte 0x11)

omit [DecidableEq α] in
/-- `alice.encrypt(&PLAINTEXT).expect("alice can send")`. -/
def sealNext (nonce : Nonce α) (alice : Session α σ) :
    Except Panic (SealedFrame α × Session α σ) := do
  match ← call (Session.encrypt P (.ok nonce) plaintext) alice with
  | (.ok sealed, alice) => return (sealed, alice)
  | (.error _, _) => throw .cannotSend

/-- The target, with the keys of the two sessions and what the RNG gives each call. -/
def ratchetHeader (signedPrekey ownRatchet : σ) (random : Nat → Random α σ) (input : Input α) :
    Except Panic Unit := do
  let { alice, bob } ← Sessions.start P signedPrekey ownRatchet
  let (opening, alice) ← sealNext P (random 0).nonce alice
  let (read, bob) ← call (Session.decrypt P opening (.ok (random 1).ratchet)) bob
  if read matches .error _ then throw .genuineRefused
  let (genuine, alice) ← sealNext P (random 2).nonce alice
  let peer := input.peer genuine
  let isGenuine := decide (peer.nonce = genuine.nonce ∧ peer.frame = genuine.frame)
  let (result, bob) ← call (Session.decrypt P peer (.ok (random 3).ratchet)) bob
  match result with
  | .ok text => if ¬ (isGenuine ∧ text = plaintext) then throw .foreignOpened
  | .error _ => if isGenuine then throw .genuineRefused
  let (again, bob) ← call (Session.decrypt P genuine (.ok (random 4).ratchet)) bob
  if again.isOk ≠ !isGenuine then throw .notExactlyOnce
  let (next, _) ← sealNext P (random 5).nonce alice
  let (last, _) ← call (Session.decrypt P next (.ok (random 6).ratchet)) bob
  match last with
  | .ok text => if text ≠ plaintext then throw .sessionLost
  | .error _ => throw .sessionLost

end Fuzz
end Quietwire
