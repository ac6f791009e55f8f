/-
  Quietwire.Crypto.Hkdf

  HKDF over HMAC in closed form: extract, then expand block by block, each block
  keyed by the extracted key and fed with the one before.
-/
import Quietwire.Crypto.Primitives

namespace Quietwire

variable {α : Type} [Octet α] (hmac : (key message : List α) → Vector α hmacSha512Len)

/-- The `n`-th block of the expand phase, counted from 1; block 0 is empty. -/
def hkdfBlock (prk info : List α) : Nat → List α
  | 0 => []
  | n + 1 =>
    (hmac prk (hkdfBlock prk info n ++ info ++ [Octet.ofByte (UInt8.ofNat (n + 1))])).toList

/-- The first `len` bytes of the blocks that HKDF expands from `ikm` and `salt`. -/
def hkdfBytes (ikm salt info : List α) (len : Nat) : Vector α len :=
  let prk := (hmac salt ikm).toList
  Vector.ofFn fun i =>
    (hmac prk (hkdfBlock hmac prk info (i / hmacSha512Len) ++ info ++
      [Octet.ofByte (UInt8.ofNat (i / hmacSha512Len + 1))])).get
        ⟨i % hmacSha512Len, Nat.mod_lt _ (by decide)⟩

/-- An output of one block is that block. -/
theorem hkdfBytes_block (ikm salt info : List α) :
    hkdfBytes hmac ikm salt info hmacSha512Len
      = hmac (hmac salt ikm).toList (info ++ [Octet.ofByte 1]) := by
  ext i hi
  have hblock : i / hmacSha512Len = 0 := Nat.div_eq_of_lt hi
  have hoffset : i % hmacSha512Len = i := Nat.mod_eq_of_lt hi
  simp only [hkdfBytes, Vector.getElem_ofFn, hblock, hoffset, hkdfBlock, List.nil_append]
  rfl

/-- A shorter output is the beginning of that block. -/
theorem hkdfBytes_of_le (ikm salt info : List α) {len : Nat} (hlen : len ≤ hmacSha512Len) :
    hkdfBytes hmac ikm salt info len
      = slice (hmac (hmac salt ikm).toList (info ++ [Octet.ofByte 1])) 0 len (by omega) := by
  ext i hi
  have hblock : i / hmacSha512Len = 0 := Nat.div_eq_of_lt (by omega)
  have hoffset : i % hmacSha512Len = i := Nat.mod_eq_of_lt (by omega)
  rw [slice_getElem _ _ _ _ _ hi]
  simp only [hkdfBytes, Vector.getElem_ofFn, hblock, hoffset, hkdfBlock, List.nil_append,
    Nat.zero_add]
  rfl

/-- The library's HKDF is HKDF over its HMAC. -/
def StandardHkdf {σ : Type} (P : Primitives α σ) : Prop :=
  ∀ (ikm salt info : List α) (len : Nat), len ≤ 255 * hmacSha512Len →
    P.hkdf ikm salt info len = hkdfBytes P.hmac ikm salt info len

end Quietwire
