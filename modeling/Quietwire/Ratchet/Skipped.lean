/-
  Quietwire.Ratchet.Skipped

  `SkippedKeys`: the message keys of frames that have not arrived yet, oldest
  first, with the two eviction rules that bound it.
-/
import Quietwire.Ratchet.Chain
import Quietwire.Support.Eviction

namespace Quietwire

open Eviction

structure SkippedKey (α : Type) where
  ratchet : PublicKey α
  number : UInt32
  key : Key α
  deriving DecidableEq

/-- Message keys of frames that have not arrived yet, oldest first. -/
abbrev SkippedKeys (α : Type) := List (SkippedKey α)

variable {α : Type} [DecidableEq α]

/-- The entry under which a frame with this header would have been stored. -/
def SkippedKey.isFor (header : Header α) (skipped : SkippedKey α) : Bool :=
  skipped.ratchet = header.ratchet ∧ skipped.number = header.messageNumber

namespace SkippedKeys

def position (self : SkippedKeys α) (header : Header α) : Option Nat :=
  self.findIdx? (SkippedKey.isFor header)

omit [DecidableEq α] in
/-- `self.0[index].key`; `none` is the panic of an index out of range. -/
def key (self : SkippedKeys α) (index : Nat) : Option (Key α) :=
  self[index]?.map SkippedKey.key

omit [DecidableEq α] in
def remove (self : SkippedKeys α) (index : Nat) : SkippedKeys α := self.eraseIdx index

/-- The `retain` pass of `evict_oldest_of_chain`, with the counter it captures. -/
def retainNewest (ratchet : PublicKey α) : Nat → SkippedKeys α → SkippedKeys α
  | _, [] => []
  | excess, skipped :: rest =>
    if 0 < excess ∧ skipped.ratchet = ratchet then retainNewest ratchet (excess - 1) rest
    else skipped :: retainNewest ratchet excess rest

def evictOldestOfChain (self : SkippedKeys α) (ratchet : PublicKey α) : SkippedKeys α :=
  let inChain := self.countP fun skipped => skipped.ratchet = ratchet
  let excess := inChain - maxSkipPerChain.toNat
  retainNewest ratchet excess self

omit [DecidableEq α] in
/-- The `while` loop of `extend`: drops the front while the store is too long. -/
def popExcess : SkippedKeys α → SkippedKeys α
  | [] => []
  | skipped :: rest =>
    if (skipped :: rest).length > maxSkippedTotal then popExcess rest else skipped :: rest

omit [DecidableEq α] in
/-- The entries for keys skipped in the chain of one ratchet key. -/
def entries (ratchet : PublicKey α) (keys : List (UInt32 × Key α)) : SkippedKeys α :=
  keys.map fun entry => { ratchet, number := entry.1, key := entry.2 }

def extend (self : SkippedKeys α) (ratchet : PublicKey α) (keys : List (UInt32 × Key α)) :
    SkippedKeys α :=
  popExcess (evictOldestOfChain (self ++ entries ratchet keys) ratchet)

/-! ## Lookup -/

/-- Lookup finds the first entry for the header, and only such an entry. -/
theorem position_eq_some_iff (self : SkippedKeys α) (header : Header α) (index : Nat) :
    self.position header = some index ↔
      ∃ older entry newer, self = older ++ entry :: newer ∧ older.length = index ∧
        SkippedKey.isFor header entry ∧ ∀ e ∈ older, ¬ SkippedKey.isFor header e := by
  unfold position
  rw [List.findIdx?_eq_some_iff_getElem]
  constructor
  · rintro ⟨hlt, hfor, hnot⟩
    refine ⟨self.take index, self[index], self.drop (index + 1), ?_, ?_, hfor, ?_⟩
    · rw [← List.drop_eq_getElem_cons hlt, List.take_append_drop]
    · rw [List.length_take, Nat.min_eq_left (Nat.le_of_lt hlt)]
    · intro e he
      obtain ⟨j, hj, rfl⟩ := List.mem_take_iff_getElem.mp he
      exact hnot j (by omega)
  · rintro ⟨older, entry, newer, rfl, rfl, hfor, hnot⟩
    refine ⟨by simp, by simpa using hfor, fun j hj => ?_⟩
    rw [List.getElem_append_left hj]
    exact hnot _ (List.getElem_mem hj)

theorem position_eq_none_iff (self : SkippedKeys α) (header : Header α) :
    self.position header = none ↔ ∀ e ∈ self, ¬ SkippedKey.isFor header e := by
  simp [position, List.findIdx?_eq_none_iff]

omit [DecidableEq α] in
@[simp] theorem key_append_cons (older newer : SkippedKeys α) (entry : SkippedKey α) :
    key (older ++ entry :: newer) older.length = some entry.key := by
  simp [key]

omit [DecidableEq α] in
@[simp] theorem remove_append_cons (older newer : SkippedKeys α) (entry : SkippedKey α) :
    remove (older ++ entry :: newer) older.length = older ++ newer := by
  simp [remove, List.eraseIdx_append_of_length_le]

/-! ## Eviction -/

/-- Whether an entry is in the chain of `ratchet`. -/
def inChain (ratchet : PublicKey α) (skipped : SkippedKey α) : Bool :=
  skipped.ratchet = ratchet

/-- An insertion as the two rules have it: the new keys behind the old ones, without the
    oldest of the chain beyond `MAX_SKIP_PER_CHAIN`, and then without the oldest of all
    beyond `MAX_SKIPPED_TOTAL`. -/
def insertBounded (self : SkippedKeys α) (ratchet : PublicKey α)
    (keys : List (UInt32 × Key α)) : SkippedKeys α :=
  keepNewest (fun _ => true) 10000 (keepNewest (inChain ratchet) 1000
    (self ++ entries ratchet keys))

theorem retainNewest_eq (ratchet : PublicKey α) (excess : Nat) (self : SkippedKeys α) :
    retainNewest ratchet excess self = dropCounting (inChain ratchet) excess self := by
  induction self generalizing excess with
  | nil => rfl
  | cons skipped rest ih =>
    rw [retainNewest, dropCounting, ih, ih]
    simp only [inChain, decide_eq_true_eq]

omit [DecidableEq α] in
theorem popExcess_eq (self : SkippedKeys α) :
    popExcess self = keepNewest (fun _ => true) 10000 self := by
  rw [← popWhile_eq]
  induction self with
  | nil => rfl
  | cons skipped rest ih => rw [popExcess, popWhile, ih]

theorem evictOldestOfChain_eq (self : SkippedKeys α) (ratchet : PublicKey α) :
    self.evictOldestOfChain ratchet = keepNewest (inChain ratchet) 1000 self := by
  rw [evictOldestOfChain, retainNewest_eq]
  exact dropCounting_eq (inChain ratchet) 1000 self

/-- The decrementing counter and the loop of `extend` compute the two rules. -/
theorem extend_eq_insertBounded (self : SkippedKeys α) (ratchet : PublicKey α)
    (keys : List (UInt32 × Key α)) :
    self.extend ratchet keys = self.insertBounded ratchet keys := by
  rw [extend, popExcess_eq, evictOldestOfChain_eq, insertBounded]

omit [DecidableEq α] in
@[simp] theorem entries_length (ratchet : PublicKey α) (keys : List (UInt32 × Key α)) :
    (entries ratchet keys).length = keys.length := List.length_map _

/-- An insertion keeps a part of the old store followed by the new keys, in order. -/
theorem extend_sublist (self : SkippedKeys α) (ratchet : PublicKey α)
    (keys : List (UInt32 × Key α)) :
    (self.extend ratchet keys).Sublist (self ++ entries ratchet keys) := by
  rw [extend_eq_insertBounded, insertBounded]
  exact (keepNewest_sublist _ _ _).trans (keepNewest_sublist _ _ _)

/-- A store that stays within one chain's share evicts nothing. -/
theorem extend_of_length_le (self : SkippedKeys α) (ratchet : PublicKey α)
    (keys : List (UInt32 × Key α)) (h : self.length + keys.length ≤ 1000) :
    self.extend ratchet keys = self ++ entries ratchet keys := by
  have hcount : ∀ p : SkippedKey α → Bool, (self ++ entries ratchet keys).countP p ≤ 1000 := by
    intro p
    have hle := List.countP_le_length (p := p) (l := self ++ entries ratchet keys)
    rw [List.length_append, entries_length] at hle
    exact Nat.le_trans hle h
  rw [extend_eq_insertBounded, insertBounded, keepNewest_of_le _ _ _ (hcount _)]
  exact keepNewest_of_le _ _ _ (Nat.le_trans (hcount _) (by decide))

end SkippedKeys

end Quietwire
