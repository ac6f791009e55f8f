/-
  Quietwire.Support.Octet

  Byte strings over an abstract alphabet.

  A fixed-length byte array is a `Vector α n` and a slice of unknown length a
  `List α`, where `α` is an alphabet that contains the 256 machine bytes
  (`Octet α`).  The machine's own alphabet is `UInt8`.  Nothing below asks that
  there be no other letters: over a larger alphabet a hash or a key derivation
  function can be injective, which over `UInt8` is impossible as soon as it
  shortens its input, so that symbolic reasoning about such functions has
  models.
-/
import Mathlib.Data.List.Basic

namespace Quietwire

/-- An alphabet that contains the machine bytes. -/
class Octet (α : Type) where
  ofByte : UInt8 → α
  toByte : α → UInt8
  toByte_ofByte : ∀ b, toByte (ofByte b) = b

instance : Octet UInt8 := ⟨id, id, fun _ => rfl⟩

attribute [simp] Octet.toByte_ofByte

variable {α : Type}

/-! ## Slices of fixed-length arrays -/

/-- The `len` bytes of `v` that start at offset `start`. -/
def slice {n : Nat} (v : Vector α n) (start len : Nat) (h : start + len ≤ n) : Vector α len :=
  Vector.ofFn fun i => v[start + i.val]

theorem slice_getElem {n : Nat} (v : Vector α n) (start len : Nat) (h : start + len ≤ n)
    (i : Nat) (hi : i < len) : (slice v start len h)[i] = v[start + i] := by
  simp [slice]

theorem toList_slice {n : Nat} (v : Vector α n) (start len : Nat) (h : start + len ≤ n) :
    (slice v start len h).toList = (v.toList.drop start).take len := by
  apply List.ext_getElem
  · simp only [Vector.length_toList, List.length_take, List.length_drop]
    omega
  · intro i hi _
    rw [Vector.length_toList] at hi
    rw [Vector.getElem_toList, slice_getElem _ _ _ _ _ hi, List.getElem_take, List.getElem_drop,
      Vector.getElem_toList]

/-- The slice that ends where the second part starts is the first part. -/
@[simp] theorem slice_append_left {m n : Nat} (u : Vector α m) (v : Vector α n)
    (h : 0 + m ≤ m + n) : slice (u ++ v) 0 m h = u := by
  ext i hi
  rw [slice_getElem, Vector.getElem_append_left (by omega)]
  simp only [Nat.zero_add]

/-- The slice that starts where the first part ends is the second part. -/
@[simp] theorem slice_append_right {m n : Nat} (u : Vector α m) (v : Vector α n)
    (h : m + n ≤ m + n) : slice (u ++ v) m n h = v := by
  ext i hi
  rw [slice_getElem, Vector.getElem_append_right (by omega) (by omega)]
  simp only [Nat.add_sub_cancel_left]

/-- A slice that lies inside the first part does not see the second. -/
theorem slice_append_of_le {m n : Nat} (u : Vector α m) (v : Vector α n) (start len : Nat)
    (h : start + len ≤ m) (h' : start + len ≤ m + n) :
    slice (u ++ v) start len h' = slice u start len h := by
  ext i hi
  rw [slice_getElem, slice_getElem, Vector.getElem_append_left]

/-- An array is the concatenation of its two halves at any offset. -/
theorem slice_append_slice {m n : Nat} (v : Vector α (m + n)) (h : 0 + m ≤ m + n)
    (h' : m + n ≤ m + n) : slice v 0 m h ++ slice v m n h' = v := by
  ext i hi
  by_cases him : i < m
  · rw [Vector.getElem_append_left him, slice_getElem]
    simp only [Nat.zero_add]
  · rw [Vector.getElem_append_right (by omega) (by omega), slice_getElem]
    congr 1
    omega

attribute [irreducible] slice

/-! ## Writing into fixed-length arrays -/

/-- `bytes[start..start + len].copy_from_slice(field)`. -/
def write {n len : Nat} (bytes : Vector α n) (start : Nat) (field : Vector α len) : Vector α n :=
  Vector.ofFn fun i =>
    if h : start ≤ i.val ∧ i.val - start < len then field.get ⟨i.val - start, h.2⟩
    else bytes.get i

theorem getElem_write_of_mem {n len : Nat} (bytes : Vector α n) (start : Nat)
    (field : Vector α len) {i : Nat} (hi : i < n) (hle : start ≤ i) (hlt : i - start < len) :
    (write bytes start field)[i] = field[i - start] := by
  rw [write, Vector.getElem_ofFn, dif_pos ⟨hle, hlt⟩]
  rfl

theorem getElem_write_of_notMem {n len : Nat} (bytes : Vector α n) (start : Nat)
    (field : Vector α len) {i : Nat} (hi : i < n) (hout : i < start ∨ start + len ≤ i) :
    (write bytes start field)[i] = bytes[i] := by
  rw [write, Vector.getElem_ofFn, dif_neg (by rw [Fin.val_mk]; omega)]
  rfl

/-- A field reads back as it was written. -/
theorem slice_write_self {n len : Nat} (bytes : Vector α n) (start : Nat) (field : Vector α len)
    (h : start + len ≤ n) : slice (write bytes start field) start len h = field := by
  apply Vector.ext
  intro i hi
  rw [slice_getElem, getElem_write_of_mem _ _ _ _ (by omega) (by omega)]
  congr 1
  omega

/-- Writing a field leaves the others alone. -/
theorem slice_write_of_disjoint {n len len' : Nat} (bytes : Vector α n) (start start' : Nat)
    (field : Vector α len) (h : start' + len' ≤ n)
    (hapart : start' + len' ≤ start ∨ start + len ≤ start') :
    slice (write bytes start field) start' len' h = slice bytes start' len' h := by
  apply Vector.ext
  intro i hi
  rw [slice_getElem, slice_getElem, getElem_write_of_notMem _ _ _ _ (by omega)]

attribute [irreducible] write

/-! ## Concatenations of fixed-length fields -/

/-- A leading field of fixed length can be told from what follows it. -/
theorem toList_append_inj {n : Nat} {u v : Vector α n} {s t : List α} :
    u.toList ++ s = v.toList ++ t ↔ u = v ∧ s = t := by
  refine ⟨fun h => ?_, fun ⟨hu, hs⟩ => hu ▸ hs ▸ rfl⟩
  obtain ⟨hu, hs⟩ := List.append_inj h (by rw [Vector.length_toList, Vector.length_toList])
  exact ⟨Vector.toList_inj.mp hu, hs⟩

theorem length_flatten_toList {n : Nat} (fields : List (Vector α n)) :
    (fields.map Vector.toList).flatten.length = fields.length * n := by
  induction fields with
  | nil => simp
  | cons field fields ih =>
    rw [List.map_cons, List.flatten_cons, List.length_append, ih, Vector.length_toList,
      List.length_cons, Nat.succ_mul, Nat.add_comm]

/-- Fields of one length can be told apart without any framing. -/
theorem flatten_toList_inj {n : Nat} (hpos : 0 < n) {us vs : List (Vector α n)}
    (h : (us.map Vector.toList).flatten = (vs.map Vector.toList).flatten) : us = vs := by
  have hlen := congrArg List.length h
  rw [length_flatten_toList, length_flatten_toList, Nat.mul_right_cancel_iff hpos] at hlen
  induction us generalizing vs with
  | nil => exact (List.eq_nil_of_length_eq_zero hlen.symm).symm
  | cons u us ih =>
    cases vs with
    | nil => cases hlen
    | cons v vs =>
      rw [List.map_cons, List.map_cons, List.flatten_cons, List.flatten_cons,
        toList_append_inj] at h
      obtain ⟨rfl, hrest⟩ := h
      rw [ih hrest (Nat.succ.inj hlen)]

/-! ## Little-endian 32-bit integers -/

variable [Octet α]

/-- `u32::to_le_bytes`. -/
def toLeBytes (n : UInt32) : Vector α 4 :=
  #v[Octet.ofByte (UInt8.ofNat n.toNat),
     Octet.ofByte (UInt8.ofNat (n.toNat / 256)),
     Octet.ofByte (UInt8.ofNat (n.toNat / 65536)),
     Octet.ofByte (UInt8.ofNat (n.toNat / 16777216))]

/-- `u32::from_le_bytes`. -/
def fromLeBytes (bytes : Vector α 4) : UInt32 :=
  UInt32.ofNat ((Octet.toByte bytes[0]).toNat + 256 * (Octet.toByte bytes[1]).toNat +
    65536 * (Octet.toByte bytes[2]).toNat + 16777216 * (Octet.toByte bytes[3]).toNat)

@[simp] theorem fromLeBytes_toLeBytes (n : UInt32) :
    fromLeBytes (toLeBytes n : Vector α 4) = n := by
  have hn : n.toNat < 4294967296 := n.toNat_lt
  apply UInt32.toNat_inj.mp
  simp only [fromLeBytes, toLeBytes, Vector.getElem_mk, List.getElem_toArray,
    List.getElem_cons_zero, List.getElem_cons_succ, Octet.toByte_ofByte, UInt8.toNat_ofNat',
    UInt32.toNat_ofNat']
  omega

/-! ## Editing single bytes -/

/-- `byte ^ x`. -/
def Octet.xor (letter : α) (x : UInt8) : α := Octet.ofByte (Octet.toByte letter ^^^ x)

theorem Octet.xor_ne (letter : α) {x : UInt8} (hx : x ≠ 0) : Octet.xor letter x ≠ letter := by
  intro heq
  have hbyte := congrArg Octet.toByte heq
  rw [Octet.xor, Octet.toByte_ofByte] at hbyte
  apply hx
  have hcancel := congrArg (Octet.toByte letter ^^^ ·) hbyte
  simpa only [← UInt8.xor_assoc, UInt8.xor_self, UInt8.zero_xor] using hcancel

/-- `bytes[i] ^= x`. -/
def xorAt {n : Nat} (bytes : Vector α n) (i : Nat) (h : i < n) (x : UInt8) : Vector α n :=
  bytes.set i (Octet.xor bytes[i] x)

theorem xorAt_ne {n : Nat} (bytes : Vector α n) {i : Nat} (h : i < n) {x : UInt8} (hx : x ≠ 0) :
    xorAt bytes i h x ≠ bytes := by
  intro heq
  have hbyte : (xorAt bytes i h x)[i] = bytes[i] := by rw [heq]
  rw [xorAt, Vector.getElem_set_self] at hbyte
  exact Octet.xor_ne _ hx hbyte

end Quietwire
