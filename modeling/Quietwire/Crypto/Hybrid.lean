/-
  Quietwire.Crypto.Hybrid

  The part of `quietwire-crypto` that only the handshake calls: BLAKE3 as a key
  derivation function, ML-KEM-768, and the public keys of Ed25519.  The library
  functions are parameters, as in `Primitives`; a public key is its encoding.
-/
import Quietwire.Crypto.Primitives

namespace Quietwire

/-- `ed25519::VERIFYING_KEY_LEN`. -/
abbrev verifyingKeyLen : Nat := 32
/-- `mlkem::ENCAPSULATION_KEY_LEN`. -/
abbrev encapsulationKeyLen : Nat := 1184
/-- `mlkem::CIPHERTEXT_LEN`. -/
abbrev ciphertextLen : Nat := 1088

abbrev VerifyingKey (α : Type) := Vector α verifyingKeyLen
abbrev EncapsulationKey (α : Type) := Vector α encapsulationKeyLen
abbrev Ciphertext (α : Type) := Vector α ciphertextLen

/-- The library functions behind `hash` and `mlkem`: `blake3::derive_key` and the calls of
    `ml_kem_768`.  `δ` is the type of decapsulation keys, `ρ` that of the randomness which an
    encapsulation draws. -/
structure HybridPrimitives (α δ ρ : Type) where
  deriveKey : (context keyMaterial : List α) → Vector α 32
  encapsulationKey : δ → EncapsulationKey α
  encapsulate : EncapsulationKey α → ρ → Ciphertext α × SecretKey α
  decapsulate : δ → Ciphertext α → SecretKey α

/-- Decapsulation undoes encapsulation. -/
def CorrectKem {α δ ρ : Type} (H : HybridPrimitives α δ ρ) : Prop :=
  ∀ (kem : δ) (randomness : ρ),
    H.decapsulate kem (H.encapsulate (H.encapsulationKey kem) randomness).1
      = (H.encapsulate (H.encapsulationKey kem) randomness).2

end Quietwire
