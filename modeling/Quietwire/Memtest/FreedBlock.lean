/-
  Quietwire.Memtest.FreedBlock

  The bytes of a block handed to `dealloc`, and the search for a secret in them.

  The search is exact: `contains` finds a pattern at every offset where all of it
  lies inside the block, and nowhere else (`FreedBlock.contains_iff`).
-/
import Mathlib.Data.List.Infix

namespace Quietwire
namespace Memtest

/-- The bytes of a block handed to `dealloc`, as the hardware holds them. -/
structure FreedBlock where
  bytes : List UInt8
  deriving DecidableEq, Repr

namespace FreedBlock

def len (block : FreedBlock) : Nat := block.bytes.length

/-- The byte at an offset inside the block. -/
def byte (block : FreedBlock) (offset : Nat) : Option UInt8 :=
  if h : offset < block.len then some (block.bytes.get ⟨offset, h⟩) else none

def isAllZero (block : FreedBlock) : Bool :=
  (List.range block.len).all fun offset => block.byte offset == some 0

def matchesAt (block : FreedBlock) (start : Nat) (pattern : List UInt8) : Bool :=
  (pattern.zipIdx start).all fun (expected, offset) => block.byte offset == some expected

/-- `usize::checked_sub`. -/
def checkedSub (a b : Nat) : Option Nat := if b ≤ a then some (a - b) else none

def contains (block : FreedBlock) (pattern : List UInt8) : Bool :=
  match checkedSub block.len pattern.length with
  | none => false
  | some lastStart => (List.range (lastStart + 1)).any fun start => block.matchesAt start pattern

variable {block : FreedBlock} {pattern : List UInt8}

theorem byte_eq (block : FreedBlock) (offset : Nat) : block.byte offset = block.bytes[offset]? := by
  rw [byte]
  split
  · next h => exact (List.getElem?_eq_getElem h).symm
  · next h => exact (List.getElem?_eq_none (Nat.le_of_not_lt h)).symm

/-- `is_all_zero` holds of wiped blocks. -/
theorem isAllZero_iff : block.isAllZero = true ↔ ∀ b ∈ block.bytes, b = 0 := by
  rw [isAllZero, List.all_eq_true]
  constructor
  · intro h b hb
    obtain ⟨offset, hoffset, rfl⟩ := List.getElem_of_mem hb
    have hzero := h offset (List.mem_range.mpr hoffset)
    rw [byte_eq, List.getElem?_eq_getElem hoffset, beq_iff_eq] at hzero
    exact Option.some.inj hzero
  · intro h offset hoffset
    have hlt : offset < block.bytes.length := List.mem_range.mp hoffset
    rw [byte_eq, List.getElem?_eq_getElem hlt, h _ (List.getElem_mem hlt), beq_self_eq_true]

/-- The pattern matches where the rest of the block starts with it. -/
theorem matchesAt_iff (start : Nat) :
    block.matchesAt start pattern = true ↔ pattern <+: block.bytes.drop start := by
  induction pattern generalizing start with
  | nil => exact iff_of_true rfl (List.nil_prefix)
  | cons expected rest ih =>
    have hcons : block.matchesAt start (expected :: rest)
        = (block.byte start == some expected && block.matchesAt (start + 1) rest) := by
      rw [matchesAt, List.zipIdx_cons, List.all_cons, matchesAt]
    rw [hcons, Bool.and_eq_true, beq_iff_eq, ih, byte_eq]
    by_cases hlt : start < block.bytes.length
    · rw [List.drop_eq_getElem_cons hlt, List.getElem?_eq_getElem hlt, List.cons_prefix_cons,
        Option.some.injEq, eq_comm]
    · have hnone : block.bytes[start]? = none := List.getElem?_eq_none (Nat.le_of_not_lt hlt)
      rw [hnone, List.drop_eq_nil_of_le (Nat.le_of_not_lt hlt)]
      refine iff_of_false (fun h => ?_) (fun h => ?_)
      · cases h.1
      · cases List.prefix_nil.mp h

/-- A pattern is contained where it is a run of bytes of the block, at any offset. -/
theorem contains_iff : block.contains pattern = true ↔ pattern <:+: block.bytes := by
  rw [contains, checkedSub]
  by_cases hle : pattern.length ≤ block.len
  · rw [if_pos hle]
    simp only [List.any_eq_true, List.mem_range, matchesAt_iff]
    constructor
    · rintro ⟨start, -, hprefix⟩
      exact List.infix_iff_prefix_suffix.mpr ⟨_, hprefix, List.drop_suffix _ _⟩
    · rintro ⟨before, after, heq⟩
      have hlength : before.length + pattern.length + after.length = block.len := by
        rw [len, ← heq, List.length_append, List.length_append]
      refine ⟨before.length, by omega, ?_⟩
      rw [← heq, List.append_assoc, List.drop_left]
      exact List.prefix_append _ _
  · -- a pattern longer than the block
    rw [if_neg hle]
    exact iff_of_false Bool.false_ne_true fun h => hle h.length_le

/-- A self-overlapping pattern, at the end of a block. -/
example : contains ⟨[1, 1, 1, 2]⟩ [1, 1, 2] = true := by decide

end FreedBlock

end Memtest
end Quietwire
