/-
  Quietwire.Memtest.Requests

  What a test asks the scanner to look for, and when a started watch looks for that:
  the occurrences of a secret as a run of bytes, or any block of a size that is not
  wiped.
-/
import Quietwire.Memtest.Scanner

namespace Quietwire
namespace Memtest

/-- What a test asks a watch to look for. -/
inductive Request where
  | bytes (secret : List UInt8)
  | blocksOfSize (size : Nat)
  deriving DecidableEq, Repr

namespace Request

/-- The block still holds what the watch looks for: the secret as a run of bytes, or, for a
    watched size, anything. -/
def LeftIn (request : Request) (block : FreedBlock) : Prop :=
  match request with
  | .bytes secret => secret <:+: block.bytes
  | .blocksOfSize size => block.bytes.length = size ∧ ∃ b ∈ block.bytes, b ≠ 0

instance (request : Request) : DecidablePred request.LeftIn := fun block =>
  match request with
  | .bytes secret => inferInstanceAs (Decidable (secret <:+: block.bytes))
  | .blocksOfSize size =>
    inferInstanceAs (Decidable (block.bytes.length = size ∧ ∃ b ∈ block.bytes, b ≠ 0))

/-- Secrets that wiped memory would match, or that are too long, are refused. -/
def Valid (request : Request) : Prop :=
  match request with
  | .bytes secret => Pattern.Recognisable secret
  | .blocksOfSize _ => True

def start (request : Request) (slots : Slots) : Except WatchError (Slots × Watch) :=
  match request with
  | .bytes secret => ScanningAllocator.watchBytes slots secret
  | .blocksOfSize size => ScanningAllocator.watchBlocksOfSize slots size

/-- The target looks for what was requested. -/
structure Served (request : Request) (target : Target) : Prop where
  valid : request.Valid
  isLeftIn : ∀ block, target.isLeftIn block = true ↔ request.LeftIn block

theorem served_bytes {secret : List UInt8} {pattern : Pattern}
    (h : Pattern.new secret = some pattern) : Served (.bytes secret) (.bytes pattern) where
  valid := by
    by_contra hnot
    rw [Pattern.new_eq_none_iff.mpr hnot] at h
    cases h
  isLeftIn block := by
    rw [Target.isLeftIn, Pattern.asBytes_new h]
    exact FreedBlock.contains_iff

theorem served_blocksOfSize (size : Nat) : Served (.blocksOfSize size) (.blocksOfSize size) where
  valid := trivial
  isLeftIn block := by
    have hzero : block.isAllZero = false ↔ ∃ b ∈ block.bytes, b ≠ 0 := by
      rw [← Bool.not_eq_true, FreedBlock.isAllZero_iff]
      push Not
      rfl
    rw [Target.isLeftIn, Bool.and_eq_true, beq_iff_eq, Bool.not_eq_true', hzero]
    rfl

variable {request : Request} {target : Target} {slots slots' : Slots} {watch : Watch}

/-- Nothing is left in a wiped block. -/
theorem Served.isLeftIn_of_isAllZero (h : request.Served target) {block : FreedBlock}
    (hwiped : block.isAllZero = true) : target.isLeftIn block = false := by
  rw [Bool.eq_false_iff]
  intro hleft
  have hin := (h.isLeftIn block).mp hleft
  have hzero := FreedBlock.isAllZero_iff.mp hwiped
  cases request with
  | bytes secret =>
    -- a valid secret has a byte that is not zero
    obtain ⟨b, hb, hne⟩ := Pattern.exists_ne_zero h.valid
    exact hne (hzero b (hin.subset hb))
  | blocksOfSize size =>
    obtain ⟨-, b, hb, hne⟩ := hin
    exact hne (hzero b hb)

/-- A watch that starts gets a free slot, with a target that serves the request. -/
theorem start_eq_ok (h : request.start slots = .ok (slots', watch)) :
    slots.get watch.index = none ∧ ∃ target, request.Served target ∧
      slots' = slots.put watch.index (some ⟨target, 0⟩) := by
  cases request with
  | bytes secret =>
    rw [start, ScanningAllocator.watchBytes] at h
    cases hnew : Pattern.new secret with
    | none =>
      rw [hnew] at h
      cases h
    | some pattern =>
      rw [hnew] at h
      obtain ⟨hfree, hset⟩ := ScanningAllocator.startWatch_eq_ok h
      exact ⟨hfree, _, served_bytes hnew, hset⟩
  | blocksOfSize size =>
    obtain ⟨hfree, hset⟩ := ScanningAllocator.startWatch_eq_ok h
    exact ⟨hfree, _, served_blocksOfSize size, hset⟩

/-- A start fails on an invalid secret, and else where every slot is in use. -/
theorem start_eq_error_iff {error : WatchError} : request.start slots = .error error ↔
    (error = .invalidPattern ∧ ¬ request.Valid) ∨
      (error = .full ∧ request.Valid ∧ ∀ i : Fin maxWatches, slots.get i ≠ none) := by
  cases request with
  | bytes secret =>
    rw [start, ScanningAllocator.watchBytes, Valid]
    cases hnew : Pattern.new secret with
    | none =>
      -- the secret is checked before a slot is looked for
      have hinvalid := Pattern.new_eq_none_iff.mp hnew
      constructor
      · intro h
        cases h
        exact .inl ⟨rfl, hinvalid⟩
      · rintro (⟨rfl, -⟩ | ⟨-, hvalid, -⟩)
        · rfl
        · exact absurd hvalid hinvalid
    | some pattern =>
      have hvalid : Pattern.Recognisable secret := (served_bytes hnew).valid
      rw [ScanningAllocator.startWatch_eq_error_iff]
      constructor
      · rintro ⟨rfl, hfull⟩
        exact .inr ⟨rfl, hvalid, hfull⟩
      · rintro (⟨-, hinvalid⟩ | ⟨rfl, -, hfull⟩)
        · exact absurd hvalid hinvalid
        · exact ⟨rfl, hfull⟩
  | blocksOfSize size =>
    rw [start, ScanningAllocator.watchBlocksOfSize, ScanningAllocator.startWatch_eq_error_iff]
    simp [Valid]

end Request

end Memtest
end Quietwire
