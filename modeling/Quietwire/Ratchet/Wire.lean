/-
  Quietwire.Ratchet.Wire

  The fixed 452-byte frame of the Double Ratchet: a cleartext header of 40
  bytes, the ciphertext of a 396-byte plaintext and a 16-byte tag, and the
  header codec (`Header::parse`, `Header::to_bytes`).
-/
import Quietwire.Crypto.Primitives

namespace Quietwire

/-- `HEADER_LEN`: length of the cleartext ratchet header at the start of a frame. -/
abbrev headerLen : Nat := publicKeyLen + 4 + 4
/-- `PLAINTEXT_LEN`. -/
abbrev plaintextLen : Nat := 396
/-- `FRAME_LEN`: header, ciphertext and tag. -/
abbrev frameLen : Nat := headerLen + (plaintextLen + tagLen)

abbrev Plaintext (α : Type) := Vector α plaintextLen
abbrev Frame (α : Type) := Vector α frameLen

/-- An encrypted frame and the nonce it was sealed with. -/
structure SealedFrame (α : Type) where
  nonce : Nonce α
  frame : Frame α
  deriving DecidableEq

/-- The ratchet header. -/
structure Header (α : Type) where
  ratchet : PublicKey α
  previousChainLen : UInt32
  messageNumber : UInt32
  deriving DecidableEq

variable {α : Type}

/-- The header part of `frame.split_at(HEADER_LEN)`, which is the associated data. -/
def SealedFrame.aad (sealed : SealedFrame α) : Vector α headerLen :=
  slice sealed.frame 0 headerLen (by decide)

/-- The rest of `frame.split_at(HEADER_LEN)`: ciphertext and tag. -/
def SealedFrame.ciphertext (sealed : SealedFrame α) : Vector α (plaintextLen + tagLen) :=
  slice sealed.frame headerLen (plaintextLen + tagLen) (by decide)

/-- Nonce, header bytes and ciphertext bytes are the whole of a sealed frame. -/
theorem SealedFrame.ext_parts {f g : SealedFrame α} (hnonce : f.nonce = g.nonce)
    (haad : f.aad = g.aad) (hcipher : f.ciphertext = g.ciphertext) : f = g := by
  have hframe : f.frame = g.frame := by
    rw [← slice_append_slice (m := headerLen) f.frame (by decide) (by decide),
      ← slice_append_slice (m := headerLen) g.frame (by decide) (by decide)]
    exact congrArg₂ (· ++ ·) haad hcipher
  cases f
  cases g
  simp_all

/-- `aead::seal` accepts the plaintext of every frame, and adds a tag. -/
def TotalSealing {σ : Type} (P : Primitives α σ) : Prop :=
  ∀ (key : SecretKey α) (nonce : Nonce α) (aad : List α) (plaintext : Plaintext α),
    ∃ ciphertext : Vector α (plaintextLen + tagLen),
      aeadSeal P key nonce aad plaintext.toList = .ok ciphertext.toList

variable [Octet α]

namespace Header

def parse (frame : Frame α) : Header α where
  ratchet := slice frame 0 publicKeyLen (by decide)
  previousChainLen := fromLeBytes (slice frame publicKeyLen 4 (by decide))
  messageNumber := fromLeBytes (slice frame (publicKeyLen + 4) 4 (by decide))

def toBytes (header : Header α) : Vector α headerLen :=
  header.ratchet ++ (toLeBytes header.previousChainLen : Vector α 4)
    ++ (toLeBytes header.messageNumber : Vector α 4)

/-- A frame that starts with the bytes of a header parses to that header,
    whatever follows. -/
@[simp] theorem parse_toBytes_append (header : Header α)
    (ciphertext : Vector α (plaintextLen + tagLen)) :
    parse (header.toBytes ++ ciphertext : Frame α) = header := by
  have hinside : ∀ (start len : Nat) (h : start + len ≤ headerLen) (h' : start + len ≤ frameLen),
      slice (header.toBytes ++ ciphertext : Frame α) start len h'
        = slice header.toBytes start len h :=
    fun start len h h' => slice_append_of_le header.toBytes ciphertext start len h h'
  have hratchet : slice header.toBytes 0 publicKeyLen (by decide) = header.ratchet := by
    rw [toBytes, slice_append_of_le _ _ _ _ (by decide), slice_append_left]
  have hprevious : slice header.toBytes publicKeyLen 4 (by decide)
      = (toLeBytes header.previousChainLen : Vector α 4) := by
    rw [toBytes, slice_append_of_le _ _ _ _ (by decide), slice_append_right]
  have hnumber : slice header.toBytes (publicKeyLen + 4) 4 (by decide)
      = (toLeBytes header.messageNumber : Vector α 4) := by
    rw [toBytes, slice_append_right]
  simp only [parse, hinside 0 publicKeyLen (by decide), hinside publicKeyLen 4 (by decide),
    hinside (publicKeyLen + 4) 4 (by decide), hratchet, hprevious, hnumber,
    fromLeBytes_toLeBytes]

end Header

/-- The frame that `encrypt_with` assembles from its header and what the AEAD returned. -/
def SealedFrame.assemble (nonce : Nonce α) (header : Header α)
    (ciphertext : Vector α (plaintextLen + tagLen)) : SealedFrame α :=
  ⟨nonce, header.toBytes ++ ciphertext⟩

section Assemble

variable (nonce : Nonce α) (header : Header α) (ciphertext : Vector α (plaintextLen + tagLen))

@[simp] theorem SealedFrame.assemble_aad :
    (SealedFrame.assemble nonce header ciphertext).aad = header.toBytes :=
  slice_append_left _ _ _

@[simp] theorem SealedFrame.assemble_ciphertext :
    (SealedFrame.assemble nonce header ciphertext).ciphertext = ciphertext :=
  slice_append_right _ _ _

@[simp] theorem SealedFrame.parse_assemble :
    Header.parse (SealedFrame.assemble nonce header ciphertext).frame = header :=
  Header.parse_toBytes_append header ciphertext

end Assemble

end Quietwire
