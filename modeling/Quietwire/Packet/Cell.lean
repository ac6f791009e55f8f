/-
  Quietwire.Packet.Cell

  The 512-byte cell of `quietwire-packet`: the authenticated head, the hop fields
  that relays spend, and the sealed body, with the codec between a cell and its
  bytes.
-/
import Quietwire.Support.Octet

namespace Quietwire
namespace Packet

/-- `CELL_LEN`. -/
abbrev cellLen : Nat := 512
/-- `VERSION`. -/
abbrev version : UInt8 := 0x01
/-- `TAG_LEN`. -/
abbrev tagLen : Nat := 16
/-- `NONCE_LEN`. -/
abbrev nonceLen : Nat := 24
/-- `CIPHERTEXT_LEN`. -/
abbrev ciphertextLen : Nat := 452
/-- `MAC_LEN`. -/
abbrev macLen : Nat := 16
/-- `AAD_LEN`. -/
abbrev aadLen : Nat := 42
/-- `MAX_TTL`. -/
abbrev maxTtl : UInt8 := 64
/-- `MAX_COPIES`. -/
abbrev maxCopies : UInt8 := 15

/-! ## Offsets -/

abbrev versionAt : Nat := 0
abbrev flagsAt : Nat := 1
abbrev ttlAt : Nat := 2
abbrev copiesAt : Nat := 3
abbrev tagAt : Nat := 4
abbrev nonceAt : Nat := tagAt + tagLen
abbrev ciphertextAt : Nat := nonceAt + nonceLen
abbrev macAt : Nat := ciphertextAt + ciphertextLen

/-- `cell::Error`. -/
inductive Error where
  | invalidLength
  | unsupportedVersion (version : UInt8)
  | ttlOutOfRange (ttl : UInt8)
  | copiesOutOfRange (copies : UInt8)
  | rng
  deriving DecidableEq

/-- The authenticated head of a cell. -/
structure CellHeader where
  flags : UInt8
  tag : Vector UInt8 tagLen
  nonce : Vector UInt8 nonceLen

namespace CellHeader

/-- `random` is the byte that the RNG fills in, or `none` if it fails. -/
def new (tag : Vector UInt8 tagLen) (nonce : Vector UInt8 nonceLen) (random : Option UInt8) :
    Except Error CellHeader :=
  match random with
  | none => .error .rng
  | some flags => .ok { flags, tag, nonce }

/-- The associated data an end-to-end seal over this cell must cover. -/
def aad (header : CellHeader) : Vector UInt8 aadLen :=
  let aad : Vector UInt8 aadLen := Vector.replicate aadLen 0
  let aad := write aad 0 #v[version]
  let aad := write aad 1 #v[header.flags]
  let aad := write aad 2 header.tag
  write aad (2 + tagLen) header.nonce

end CellHeader

/-- The hop fields.  They are private, and only `new` and `spent` make them: a value is
    within the maxima of the format. -/
structure Hops where
  ttl : UInt8
  copies : UInt8
  ttl_le : ttl ≤ maxTtl
  copies_le : copies ≤ maxCopies

namespace Hops

def new (ttl copies : UInt8) : Except Error Hops :=
  if httl : ttl > maxTtl then .error (.ttlOutOfRange ttl)
  else if hcopies : copies > maxCopies then .error (.copiesOutOfRange copies)
  else .ok {
    ttl
    copies
    ttl_le := UInt8.not_lt.mp httl
    copies_le := UInt8.not_lt.mp hcopies }

theorem sub_one_le {ttl : UInt8} (hle : ttl ≤ maxTtl) (hpos : 1 ≤ ttl) : ttl - 1 ≤ maxTtl := by
  rw [UInt8.le_iff_toNat_le] at hle hpos ⊢
  rw [UInt8.toNat_sub_of_le _ _ (UInt8.le_iff_toNat_le.mpr hpos)]
  omega

/-- The same budget one hop poorer, or `none` when it is spent. -/
def spent (hops : Hops) : Option Hops :=
  if h : 1 ≤ hops.ttl then
    some { hops with ttl := hops.ttl - 1, ttl_le := sub_one_le hops.ttl_le h }
  else none

end Hops

/-- The sealed payload of a cell. -/
structure SealedBody where
  ciphertext : Vector UInt8 ciphertextLen
  mac : Vector UInt8 macLen

/-- One cell. -/
structure Cell512 where
  header : CellHeader
  hops : Hops
  body : SealedBody

namespace Cell512

def new (header : CellHeader) (hops : Hops) (body : SealedBody) : Cell512 :=
  { header, hops, body }

/-- Reads a cell off the wire, once the input is known to have 512 bytes. -/
def fromArray (bytes : Vector UInt8 cellLen) : Except Error Cell512 := do
  if bytes[versionAt] ≠ version then
    throw (.unsupportedVersion bytes[versionAt])
  let tag := slice bytes tagAt tagLen (by decide)
  let nonce := slice bytes nonceAt nonceLen (by decide)
  let ciphertext := slice bytes ciphertextAt ciphertextLen (by decide)
  let mac := slice bytes macAt macLen (by decide)
  let hops ← Hops.new bytes[ttlAt] bytes[copiesAt]
  return {
    header := { flags := bytes[flagsAt], tag, nonce }
    hops
    body := { ciphertext, mac } }

/-- What `from_bytes` makes of 512 bytes with the right version, given their hop fields. -/
def ofHops (bytes : Vector UInt8 cellLen) (hops : Hops) : Cell512 where
  header := {
    flags := bytes[flagsAt]
    tag := slice bytes tagAt tagLen (by decide)
    nonce := slice bytes nonceAt nonceLen (by decide) }
  hops
  body := {
    ciphertext := slice bytes ciphertextAt ciphertextLen (by decide)
    mac := slice bytes macAt macLen (by decide) }

/-- Reads a cell off the wire. -/
def fromBytes (bytes : List UInt8) : Except Error Cell512 :=
  if h : bytes.length = cellLen then fromArray ⟨bytes.toArray, by simpa using h⟩
  else .error .invalidLength

/-- Writes the cell out in wire order. -/
def toBytes (cell : Cell512) : Vector UInt8 cellLen :=
  let bytes : Vector UInt8 cellLen := Vector.replicate cellLen 0
  let bytes := write bytes versionAt #v[version]
  let bytes := write bytes flagsAt #v[cell.header.flags]
  let bytes := write bytes ttlAt #v[cell.hops.ttl]
  let bytes := write bytes copiesAt #v[cell.hops.copies]
  let bytes := write bytes tagAt cell.header.tag
  let bytes := write bytes nonceAt cell.header.nonce
  let bytes := write bytes ciphertextAt cell.body.ciphertext
  write bytes macAt cell.body.mac

/-- The associated data of the end-to-end seal. -/
def aad (cell : Cell512) : Vector UInt8 aadLen := cell.header.aad

/-- The cell a relay passes on, one hop poorer, or `none` when the hop budget is spent. -/
def forwarded (cell : Cell512) : Option Cell512 :=
  cell.hops.spent.map fun hops => { cell with hops }

end Cell512

end Packet
end Quietwire
