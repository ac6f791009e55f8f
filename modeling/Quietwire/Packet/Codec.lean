/-
  Quietwire.Packet.Codec

  `from_bytes` and `to_bytes` are two directions of one bijection: a cell is read
  from exactly the bytes that it writes.
-/
import Quietwire.Packet.Cell

namespace Quietwire
namespace Packet

/-- Every field of `bytes` is as in `cell`. -/
structure Cell512.Laid (cell : Cell512) (bytes : Vector UInt8 cellLen) : Prop where
  version : bytes[versionAt] = version
  flags : bytes[flagsAt] = cell.header.flags
  ttl : bytes[ttlAt] = cell.hops.ttl
  copies : bytes[copiesAt] = cell.hops.copies
  tag : slice bytes tagAt tagLen (by decide) = cell.header.tag
  nonce : slice bytes nonceAt nonceLen (by decide) = cell.header.nonce
  ciphertext : slice bytes ciphertextAt ciphertextLen (by decide) = cell.body.ciphertext
  mac : slice bytes macAt macLen (by decide) = cell.body.mac

/-- Arrays with a common slice agree on every byte of it. -/
theorem getElem_eq_of_slice_eq {n start len : Nat} {u v : Vector UInt8 n} {h : start + len ≤ n}
    (heq : slice u start len h = slice v start len h) {i : Nat} (hi : i < n) (hle : start ≤ i)
    (hlt : i < start + len) : u[i] = v[i] := by
  have hindex : start + (i - start) = i := by omega
  have hu := slice_getElem u start len h (i - start) (by omega)
  have hv := slice_getElem v start len h (i - start) (by omega)
  rw [heq, hv] at hu
  simp only [hindex] at hu
  exact hu.symm

namespace Cell512

variable {cell : Cell512} {bytes : Vector UInt8 cellLen}

/-- A cell writes each of its fields in its place. -/
theorem laid_toBytes (cell : Cell512) : cell.Laid cell.toBytes := by
  constructor
  case version =>
    simp (disch := decide) only [toBytes, getElem_write_of_notMem, getElem_write_of_mem]
    rfl
  case flags =>
    simp (disch := decide) only [toBytes, getElem_write_of_notMem, getElem_write_of_mem]
    rfl
  case ttl =>
    simp (disch := decide) only [toBytes, getElem_write_of_notMem, getElem_write_of_mem]
    rfl
  case copies =>
    simp (disch := decide) only [toBytes, getElem_write_of_notMem, getElem_write_of_mem]
    rfl
  case tag =>
    simp (disch := decide) only [toBytes, slice_write_of_disjoint, slice_write_self]
  case nonce =>
    simp (disch := decide) only [toBytes, slice_write_of_disjoint, slice_write_self]
  case ciphertext =>
    simp (disch := decide) only [toBytes, slice_write_of_disjoint, slice_write_self]
  case mac => exact slice_write_self _ _ _ _

/-- The eight fields are all of a cell. -/
theorem Laid.unique {bytes' : Vector UInt8 cellLen} (h : cell.Laid bytes)
    (h' : cell.Laid bytes') : bytes = bytes' := by
  apply Vector.ext
  intro i hi
  have hfield : i = 0 ∨ i = 1 ∨ i = 2 ∨ i = 3 ∨ (4 ≤ i ∧ i < 20) ∨ (20 ≤ i ∧ i < 44) ∨
      (44 ≤ i ∧ i < 496) ∨ 496 ≤ i := by omega
  rcases hfield with rfl | rfl | rfl | rfl | ⟨hle, hlt⟩ | ⟨hle, hlt⟩ | ⟨hle, hlt⟩ | hle
  · exact h.version.trans h'.version.symm
  · exact h.flags.trans h'.flags.symm
  · exact h.ttl.trans h'.ttl.symm
  · exact h.copies.trans h'.copies.symm
  · exact getElem_eq_of_slice_eq (h.tag.trans h'.tag.symm) hi hle hlt
  · exact getElem_eq_of_slice_eq (h.nonce.trans h'.nonce.symm) hi hle hlt
  · exact getElem_eq_of_slice_eq (h.ciphertext.trans h'.ciphertext.symm) hi hle hlt
  · exact getElem_eq_of_slice_eq (h.mac.trans h'.mac.symm) hi hle hi

theorem toBytes_eq_iff : cell.toBytes = bytes ↔ cell.Laid bytes := by
  constructor
  · rintro rfl
    exact cell.laid_toBytes
  · intro h
    exact cell.laid_toBytes.unique h

end Cell512

theorem Hops.new_eq_ok_iff {ttl copies : UInt8} {hops : Hops} :
    Hops.new ttl copies = .ok hops ↔ hops.ttl = ttl ∧ hops.copies = copies := by
  unfold Hops.new
  constructor
  · intro h
    split at h
    · cases h
    · split at h
      · cases h
      · cases h
        exact ⟨rfl, rfl⟩
  · rintro ⟨rfl, rfl⟩
    rw [dif_neg (UInt8.not_lt.mpr hops.ttl_le), dif_neg (UInt8.not_lt.mpr hops.copies_le)]

theorem Hops.exists_new_iff {ttl copies : UInt8} :
    (∃ hops, Hops.new ttl copies = .ok hops) ↔ ttl ≤ maxTtl ∧ copies ≤ maxCopies := by
  constructor
  · rintro ⟨hops, h⟩
    obtain ⟨rfl, rfl⟩ := Hops.new_eq_ok_iff.mp h
    exact ⟨hops.ttl_le, hops.copies_le⟩
  · rintro ⟨httl, hcopies⟩
    exact ⟨⟨ttl, copies, httl, hcopies⟩, Hops.new_eq_ok_iff.mpr ⟨rfl, rfl⟩⟩

namespace Cell512

variable {cell : Cell512} {bytes : Vector UInt8 cellLen}

theorem fromArray_eq_ok_iff : fromArray bytes = .ok cell ↔ bytes[versionAt] = version ∧
    ∃ hops, Hops.new bytes[ttlAt] bytes[copiesAt] = .ok hops ∧ cell = ofHops bytes hops := by
  unfold fromArray
  by_cases hversion : bytes[versionAt] = version
  · rw [if_neg (not_not.mpr hversion)]
    cases hhops : Hops.new bytes[ttlAt] bytes[copiesAt] with
    | error e => simp [bind, Except.bind]
    | ok hops =>
      simp only [bind, Except.bind, pure, Except.pure, hversion, true_and, Except.ok.injEq,
        exists_eq_left']
      exact eq_comm
  · rw [if_pos hversion]
    simp [hversion, throw, throwThe, MonadExceptOf.throw, bind, Except.bind]

/-- A cell is read from exactly the bytes that it writes. -/
theorem fromArray_eq_ok_iff_toBytes : fromArray bytes = .ok cell ↔ cell.toBytes = bytes := by
  rw [fromArray_eq_ok_iff, toBytes_eq_iff]
  constructor
  · rintro ⟨hversion, hops, hhops, rfl⟩
    obtain ⟨httl, hcopies⟩ := Hops.new_eq_ok_iff.mp hhops
    exact ⟨hversion, rfl, httl.symm, hcopies.symm, rfl, rfl, rfl, rfl⟩
  · intro h
    refine ⟨h.version, cell.hops, ?_, ?_⟩
    · exact Hops.new_eq_ok_iff.mpr ⟨h.ttl.symm, h.copies.symm⟩
    · rw [ofHops, h.flags, h.tag, h.nonce, h.ciphertext, h.mac]

theorem exists_fromArray_iff : (∃ cell, fromArray bytes = .ok cell) ↔
    bytes[versionAt] = version ∧ bytes[ttlAt] ≤ maxTtl ∧ bytes[copiesAt] ≤ maxCopies := by
  constructor
  · rintro ⟨cell, h⟩
    obtain ⟨hversion, hops, hhops, -⟩ := fromArray_eq_ok_iff.mp h
    exact ⟨hversion, Hops.exists_new_iff.mp ⟨hops, hhops⟩⟩
  · rintro ⟨hversion, hle⟩
    obtain ⟨hops, hhops⟩ := Hops.exists_new_iff.mpr hle
    exact ⟨ofHops bytes hops, fromArray_eq_ok_iff.mpr ⟨hversion, hops, hhops, rfl⟩⟩

theorem fromBytes_eq_ok_iff {b : List UInt8} :
    fromBytes b = .ok cell ↔ cell.toBytes.toList = b := by
  unfold fromBytes
  constructor
  · intro h
    split at h
    · rw [fromArray_eq_ok_iff_toBytes.mp h]
      rfl
    · cases h
  · rintro rfl
    have hlen : cell.toBytes.toList.length = cellLen := Vector.length_toList
    rw [dif_pos hlen]
    exact fromArray_eq_ok_iff_toBytes.mpr rfl

theorem fromBytes_toList : fromBytes bytes.toList = fromArray bytes := by
  have hlen : bytes.toList.length = cellLen := Vector.length_toList
  rw [fromBytes, dif_pos hlen]
  rfl

/-- An input of another length is turned down before anything is read. -/
theorem length_of_fromBytes {b : List UInt8} (h : fromBytes b = .ok cell) :
    b.length = cellLen := by
  rw [← fromBytes_eq_ok_iff.mp h]
  exact Vector.length_toList

/-- The 512 bytes behind a list of that length. -/
theorem exists_toList_eq {b : List UInt8} (hlen : b.length = cellLen) :
    ∃ bytes : Vector UInt8 cellLen, bytes.toList = b :=
  ⟨⟨b.toArray, hlen⟩, rfl⟩

end Cell512

theorem getElem?_toList_eq_some_iff {n i : Nat} {v : Vector UInt8 n} (hi : i < n) {x : UInt8} :
    v.toList[i]? = some x ↔ v[i] = x := by
  rw [List.getElem?_eq_getElem (by rw [Vector.length_toList]; exact hi), Vector.getElem_toList,
    Option.some_inj]

/-- The codec is a bijection onto the format: exactly the byte strings of the format are
    accepted, a cell that was read writes the bytes that it was read from, and every cell is
    read back from what it writes. -/
theorem cell_codec :
    (∀ b : List UInt8, (∃ cell, Cell512.fromBytes b = .ok cell) ↔
      b.length = 512 ∧ b[0]? = some 1 ∧ (∃ ttl : UInt8, b[2]? = some ttl ∧ ttl ≤ 64) ∧
        ∃ copies : UInt8, b[3]? = some copies ∧ copies ≤ 15) ∧
    (∀ (b : List UInt8) (cell : Cell512), Cell512.fromBytes b = .ok cell →
      cell.toBytes.toList = b) ∧
    ∀ cell : Cell512, Cell512.fromBytes cell.toBytes.toList = .ok cell := by
  refine ⟨?_, fun b cell h => Cell512.fromBytes_eq_ok_iff.mp h, fun cell =>
    Cell512.fromBytes_eq_ok_iff.mpr rfl⟩
  intro b
  constructor
  · rintro ⟨cell, h⟩
    -- the length first: a list of any other length is no array
    have hlen := Cell512.length_of_fromBytes h
    obtain ⟨bytes, rfl⟩ := Cell512.exists_toList_eq hlen
    rw [Cell512.fromBytes_toList] at h
    obtain ⟨hversion, httl, hcopies⟩ := Cell512.exists_fromArray_iff.mp ⟨cell, h⟩
    refine ⟨hlen, ?_, ⟨bytes[ttlAt], ?_, httl⟩, bytes[copiesAt], ?_, hcopies⟩
    · exact (getElem?_toList_eq_some_iff (by decide)).mpr hversion
    · exact (getElem?_toList_eq_some_iff (by decide)).mpr rfl
    · exact (getElem?_toList_eq_some_iff (by decide)).mpr rfl
  · rintro ⟨hlen, hversion, ⟨ttl, hat, httl⟩, copies, hcopiesAt, hcopies⟩
    obtain ⟨bytes, rfl⟩ := Cell512.exists_toList_eq hlen
    rw [Cell512.fromBytes_toList]
    apply Cell512.exists_fromArray_iff.mpr
    -- `get?` at the three places the parser checks, as bytes of the array
    rw [getElem?_toList_eq_some_iff (by decide)] at hversion hat hcopiesAt
    subst hat hcopiesAt
    exact ⟨hversion, httl, hcopies⟩

end Packet
end Quietwire
