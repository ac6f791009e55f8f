/-
  Quietwire.Memtest.Scanner

  `ScanningAllocator`: sixteen slots, each with what a watch looks for and how many
  freed blocks still held it.  Every function is what one critical section of the
  mutex does to the slots.

  A count is a `usize` whose overflow aborts the test, as in every build with
  overflow checks; `inspect` is `none` then.
-/
import Quietwire.Memtest.FreedBlock
import Mathlib.Algebra.Group.Nat.Defs
import Mathlib.Data.Fintype.Card

namespace Quietwire
namespace Memtest

/-- How many watches can be active at once. -/
def maxWatches : Nat := 16

/-- Longest secret `watch_bytes` accepts. -/
def maxPatternLen : Nat := 64

/-- Why a watch could not start. -/
inductive WatchError where
  | invalidPattern
  | full
  deriving DecidableEq, Repr

/-! ## Patterns -/

structure Pattern where
  bytes : Vector UInt8 maxPatternLen
  len : Nat
  len_le : len ≤ maxPatternLen

namespace Pattern

/-- A secret is recognisable unless wiped memory would match it, or it is too long. -/
def Recognisable (secret : List UInt8) : Prop :=
  secret.length ≤ maxPatternLen ∧ secret.any (· != 0) = true

instance (secret : List UInt8) : Decidable (Recognisable secret) := instDecidableAnd

def new (secret : List UInt8) : Option Pattern :=
  if h : Recognisable secret then
    some ⟨Vector.ofFn fun i => secret.getD i 0, secret.length, h.1⟩
  else none

def asBytes (pattern : Pattern) : List UInt8 := pattern.bytes.toList.take pattern.len

variable {secret : List UInt8} {pattern : Pattern}

theorem new_eq_none_iff : new secret = none ↔ ¬ Recognisable secret := by
  rw [new]
  split
  · next h => exact iff_of_false (fun hnone => by cases hnone) (not_not_intro h)
  · next h => exact iff_of_true rfl h

/-- A pattern gives back the secret it was made of. -/
theorem asBytes_new (h : new secret = some pattern) : asBytes pattern = secret := by
  rw [new] at h
  split at h
  · next hrecognisable =>
    obtain rfl := Option.some.inj h
    have hle : secret.length ≤ maxPatternLen := hrecognisable.1
    apply List.ext_getElem
    · rw [asBytes, List.length_take, Vector.length_toList]
      exact Nat.min_eq_left hle
    · intro i hi hi'
      simp only [asBytes, List.getElem_take, Vector.getElem_toList, Vector.getElem_ofFn,
        List.getD_eq_getElem?_getD, List.getElem?_eq_getElem hi', Option.getD_some]
  · cases h

theorem exists_ne_zero (h : Recognisable secret) : ∃ b ∈ secret, b ≠ 0 := by
  obtain ⟨b, hb, hne⟩ := List.any_eq_true.mp h.2
  exact ⟨b, hb, by simpa using hne⟩

end Pattern

/-! ## Targets and slots -/

inductive Target where
  | bytes (pattern : Pattern)
  | blocksOfSize (size : Nat)

def Target.isLeftIn (target : Target) (block : FreedBlock) : Bool :=
  match target with
  | .bytes pattern => block.contains pattern.asBytes
  | .blocksOfSize size => block.len == size && !block.isAllZero

/-- `+= 1` on a `usize`, `none` where it overflows. -/
def addOne (count : UInt64) : Option UInt64 :=
  if count.toNat + 1 < 2 ^ 64 then some (count + 1) else none

theorem addOne_eq_some {count count' : UInt64} (h : addOne count = some count') :
    count'.toNat = count.toNat + 1 := by
  rw [addOne] at h
  split at h
  · next hlt =>
    obtain rfl := Option.some.inj h
    rw [UInt64.toNat_add]
    exact Nat.mod_eq_of_lt hlt
  · cases h

theorem addOne_eq_none {count : UInt64} (h : addOne count = none) :
    count.toNat = 2 ^ 64 - 1 := by
  rw [addOne] at h
  split at h
  · cases h
  · next hge =>
    have hlt := count.toNat_lt
    omega

structure Slot where
  target : Target
  unwipedFrees : UInt64

def Slot.inspect (slot : Slot) (block : FreedBlock) : Option Slot :=
  if slot.target.isLeftIn block then
    (addOne slot.unwipedFrees).map fun count => { slot with unwipedFrees := count }
  else some slot

/-- What inspecting a block does to a slot: it counts the block if the secret is left in it. -/
theorem Slot.inspect_eq_some {slot slot' : Slot} {block : FreedBlock}
    (h : slot.inspect block = some slot') : slot'.target = slot.target ∧
      slot'.unwipedFrees.toNat
        = slot.unwipedFrees.toNat + if slot.target.isLeftIn block then 1 else 0 := by
  rw [Slot.inspect] at h
  by_cases hleft : slot.target.isLeftIn block = true
  · rw [if_pos hleft] at h ⊢
    obtain ⟨count, hcount, rfl⟩ := Option.map_eq_some_iff.mp h
    exact ⟨rfl, addOne_eq_some hcount⟩
  · rw [if_neg hleft] at h ⊢
    obtain rfl := Option.some.inj h
    exact ⟨rfl, rfl⟩

theorem Slot.inspect_eq_none {slot : Slot} {block : FreedBlock}
    (h : slot.inspect block = none) : slot.unwipedFrees.toNat = 2 ^ 64 - 1 := by
  rw [Slot.inspect] at h
  split at h
  · exact addOne_eq_none (Option.map_eq_none_iff.mp h)
  · cases h

/-! ## The allocator -/

abbrev Slots := Vector (Option Slot) maxWatches

def Slots.put (slots : Slots) (i : Fin maxWatches) (slot : Option Slot) : Slots := slots.set i slot

/-- An active watch, by the index of its slot. -/
structure Watch where
  index : Fin maxWatches
  deriving DecidableEq, Repr

namespace ScanningAllocator

/-- An allocator with no active watches. -/
def new : Slots := Vector.replicate maxWatches none

def startWatch (slots : Slots) (target : Target) : Except WatchError (Slots × Watch) :=
  match slots.findFinIdx? Option.isNone with
  | none => .error .full
  | some index => .ok (slots.put index (some ⟨target, 0⟩), ⟨index⟩)

def watchBytes (slots : Slots) (secret : List UInt8) : Except WatchError (Slots × Watch) :=
  match Pattern.new secret with
  | none => .error .invalidPattern
  | some pattern => startWatch slots (.bytes pattern)

def watchBlocksOfSize (slots : Slots) (size : Nat) : Except WatchError (Slots × Watch) :=
  startWatch slots (.blocksOfSize size)

/-- What `dealloc` does before it frees the block. -/
def inspect (slots : Slots) (block : FreedBlock) : Option Slots :=
  slots.mapM fun slot => slot.mapM fun slot => slot.inspect block

end ScanningAllocator

def Watch.unwipedFrees (watch : Watch) (slots : Slots) : UInt64 :=
  match slots.get watch.index with
  | none => 0
  | some slot => slot.unwipedFrees

def Watch.drop (watch : Watch) (slots : Slots) : Slots := slots.put watch.index none

theorem get_put_self (slots : Slots) (i : Fin maxWatches) (slot : Option Slot) :
    (slots.put i slot).get i = slot := Vector.getElem_set_self i.isLt

theorem get_put_of_ne (slots : Slots) {i j : Fin maxWatches} (slot : Option Slot)
    (h : i ≠ j) : (slots.put i slot).get j = slots.get j :=
  Vector.getElem_set_ne i.isLt j.isLt fun heq => h (Fin.ext heq)

namespace ScanningAllocator

variable {slots slots' : Slots} {target : Target} {watch : Watch}

/-- A watch starts in a free slot, with nothing counted. -/
theorem startWatch_eq_ok (h : startWatch slots target = .ok (slots', watch)) :
    slots.get watch.index = none ∧ slots' = slots.put watch.index (some ⟨target, 0⟩) := by
  rw [startWatch] at h
  split at h
  · cases h
  · next index hindex =>
    cases h
    refine ⟨?_, rfl⟩
    -- the slot that `position` finds is free
    obtain ⟨array, hsize⟩ := slots
    rw [Vector.findFinIdx?, Option.map_eq_some_iff] at hindex
    obtain ⟨i, hi, rfl⟩ := hindex
    exact Option.isNone_iff_eq_none.mp (Array.findFinIdx?_eq_some_iff.mp hi).1

theorem startWatch_eq_error_iff {error : WatchError} :
    startWatch slots target = .error error ↔
      error = .full ∧ ∀ i : Fin maxWatches, slots.get i ≠ none := by
  have hnone : slots.findFinIdx? Option.isNone = none ↔
      ∀ i : Fin maxWatches, slots.get i ≠ none := by
    rw [Vector.findFinIdx?_eq_none_iff]
    constructor
    · intro h i heq
      exact h _ (Vector.getElem_mem i.isLt) (Option.isNone_iff_eq_none.mpr heq)
    · intro h slot hmem hnone
      obtain ⟨i, hi, rfl⟩ := Vector.getElem_of_mem hmem
      exact h ⟨i, hi⟩ (Option.isNone_iff_eq_none.mp hnone)
  -- the only error is that no slot is free
  rw [← hnone, startWatch]
  cases hfind : slots.findFinIdx? Option.isNone with
  | none =>
    constructor
    · intro h
      cases h
      exact ⟨rfl, rfl⟩
    · rintro ⟨rfl, -⟩
      rfl
  | some index =>
    constructor
    · intro h
      cases h
    · rintro ⟨-, h⟩
      cases h

/-- Mapping a list in `Option` maps each of its elements. -/
theorem mapM_eq_some_iff {β γ : Type} {f : β → Option γ} {l : List β} {l' : List γ} :
    l.mapM f = some l' ↔ List.Forall₂ (fun b c => f b = some c) l l' := by
  induction l generalizing l' with
  | nil =>
    rw [List.mapM_nil, List.forall₂_nil_left_iff]
    exact ⟨fun h => (Option.some.inj h).symm, fun h => congrArg some h.symm⟩
  | cons b l ih =>
    rw [List.mapM_cons, List.forall₂_cons_left_iff]
    constructor
    · intro h
      obtain ⟨c, hc, h⟩ := Option.bind_eq_some_iff.mp h
      obtain ⟨rest, hrest, h⟩ := Option.bind_eq_some_iff.mp h
      exact ⟨c, rest, hc, ih.mp hrest, (Option.some.inj h).symm⟩
    · rintro ⟨c, rest, hc, hrest, rfl⟩
      rw [hc, ih.mpr hrest]
      rfl

theorem exists_of_mapM_eq_none {β γ : Type} {f : β → Option γ} {l : List β}
    (h : l.mapM f = none) : ∃ b ∈ l, f b = none := by
  induction l with
  | nil => cases h
  | cons b l ih =>
    cases hb : f b with
    | none => exact ⟨b, List.mem_cons_self, hb⟩
    | some c =>
      rw [List.mapM_cons, hb] at h
      have hrest : l.mapM f = none := by
        cases hl : l.mapM f with
        | none => rfl
        | some rest =>
          rw [hl] at h
          cases h
      obtain ⟨b', hmem, hnone⟩ := ih hrest
      exact ⟨b', List.mem_cons_of_mem _ hmem, hnone⟩

theorem toList_inspect (slots : Slots) (block : FreedBlock) :
    (inspect slots block).map Vector.toList
      = slots.toList.mapM fun slot => slot.mapM fun slot => slot.inspect block := by
  rw [inspect, ← Vector.toList_toArray, ← Array.toList_mapM, ← Vector.toArray_mapM]
  cases slots.mapM fun slot => slot.mapM fun slot => slot.inspect block with
  | none => rfl
  | some slots' => rfl

/-- `inspect` inspects the slots in use, each on its own. -/
theorem inspect_eq_some {block : FreedBlock} (h : inspect slots block = some slots')
    (i : Fin maxWatches) :
    (slots.get i).mapM (fun slot => slot.inspect block) = some (slots'.get i) := by
  have hlist := toList_inspect slots block
  rw [h, Option.map_some, eq_comm, mapM_eq_some_iff, List.forall₂_iff_get] at hlist
  obtain ⟨-, hget⟩ := hlist
  have hi := hget i (by rw [Vector.length_toList]; exact i.isLt)
    (by rw [Vector.length_toList]; exact i.isLt)
  simp only [List.get_eq_getElem, Vector.getElem_toList] at hi
  exact hi

theorem inspect_eq_some_of_none {block : FreedBlock} (h : inspect slots block = some slots')
    {i : Fin maxWatches} (hi : slots.get i = none) : slots'.get i = none := by
  have hslot := inspect_eq_some h i
  rw [hi] at hslot
  exact (Option.some.inj hslot).symm

theorem inspect_eq_some_of_some {block : FreedBlock} (h : inspect slots block = some slots')
    {i : Fin maxWatches} {slot : Slot} (hi : slots.get i = some slot) :
    ∃ slot', slots'.get i = some slot' ∧ slot.inspect block = some slot' := by
  have hslot := inspect_eq_some h i
  rw [hi, Option.mapM_some] at hslot
  obtain ⟨slot', hinspect, heq⟩ := Option.map_eq_some_iff.mp hslot
  exact ⟨slot', heq.symm, hinspect⟩

/-- It aborts where the inspection of a slot does. -/
theorem inspect_eq_none {block : FreedBlock} (h : inspect slots block = none) :
    ∃ (i : Fin maxWatches) (slot : Slot), slots.get i = some slot ∧ slot.inspect block = none := by
  have hlist := toList_inspect slots block
  rw [h, Option.map_none] at hlist
  obtain ⟨slot, hmem, hnone⟩ := exists_of_mapM_eq_none hlist.symm
  obtain ⟨i, hi, rfl⟩ := List.getElem_of_mem hmem
  rw [Vector.length_toList] at hi
  rw [Vector.getElem_toList] at hnone
  change (slots.get ⟨i, hi⟩).mapM _ = none at hnone
  -- a free slot has no count that could overflow
  cases hslot : slots.get ⟨i, hi⟩ with
  | none =>
    rw [hslot] at hnone
    cases hnone
  | some slot =>
    rw [hslot] at hnone
    refine ⟨⟨i, hi⟩, slot, hslot, ?_⟩
    cases hinspect : slot.inspect block with
    | none => rfl
    | some slot' =>
      rw [Option.mapM_some, hinspect] at hnone
      cases hnone

end ScanningAllocator

end Memtest
end Quietwire
