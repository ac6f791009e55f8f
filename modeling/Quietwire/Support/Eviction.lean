/-
  Quietwire.Support.Eviction

  Lists that hold a bounded number of elements of a kind, oldest first: of more
  than `limit` elements that satisfy `p`, the oldest are dropped (`keepNewest`).
  Two ways to compute it are shown to agree with it: one pass with a counter of
  what is left to drop, and a loop that pops the front.
-/
import Mathlib.Data.List.Basic

namespace Quietwire
namespace Eviction

variable {β : Type}

/-- The list without the elements that satisfy `p` and are followed by `limit` others that
    do. -/
def keepNewest (p : β → Bool) (limit : Nat) : List β → List β
  | [] => []
  | b :: rest =>
    if p b ∧ limit ≤ rest.countP p then keepNewest p limit rest
    else b :: keepNewest p limit rest

/-- The elements that `keepNewest` drops. -/
def evicted (p : β → Bool) (limit : Nat) : List β → List β
  | [] => []
  | b :: rest =>
    if p b ∧ limit ≤ rest.countP p then b :: evicted p limit rest
    else evicted p limit rest

variable (p : β → Bool) (limit : Nat) (l : List β)

/-! ## What is kept -/

theorem keepNewest_sublist : (keepNewest p limit l).Sublist l := by
  induction l with
  | nil => exact List.Sublist.slnil
  | cons b rest ih =>
    rw [keepNewest]
    split
    · exact ih.cons b
    · exact ih.cons_cons b

/-- Of a kind, as many as the limit are kept. -/
theorem countP_keepNewest : (keepNewest p limit l).countP p = min limit (l.countP p) := by
  induction l with
  | nil => exact (Nat.min_zero limit).symm
  | cons b rest ih =>
    rw [keepNewest]
    by_cases hb : p b = true
    · by_cases hlimit : limit ≤ rest.countP p
      · rw [if_pos ⟨hb, hlimit⟩, ih, List.countP_cons_of_pos hb]
        omega
      · rw [if_neg (fun h => hlimit h.2), List.countP_cons_of_pos hb, ih,
          List.countP_cons_of_pos hb]
        omega
    · rw [if_neg (fun h => hb h.1), List.countP_cons_of_neg hb, ih, List.countP_cons_of_neg hb]

theorem countP_keepNewest_le : (keepNewest p limit l).countP p ≤ limit := by
  rw [countP_keepNewest]
  exact Nat.min_le_left _ _

/-- Below the limit nothing is dropped. -/
theorem keepNewest_of_le (h : l.countP p ≤ limit) : keepNewest p limit l = l := by
  induction l with
  | nil => rfl
  | cons b rest ih =>
    have hle : ¬ (p b = true ∧ limit ≤ rest.countP p) := by
      rintro ⟨hb, hlimit⟩
      rw [List.countP_cons_of_pos hb] at h
      omega
    rw [keepNewest, if_neg hle, ih (Nat.le_trans (List.sublist_cons_self b rest).countP_le h)]

/-- When every element is of the kind, the newest are the end of the list. -/
theorem keepNewest_true :
    keepNewest (fun _ => true) limit l = l.drop (l.length - limit) := by
  induction l with
  | nil => exact List.drop_nil.symm
  | cons b rest ih =>
    rw [keepNewest, List.countP_true, List.length_cons]
    by_cases hlimit : limit ≤ rest.length
    · have hsucc : rest.length + 1 - limit = rest.length - limit + 1 := by omega
      rw [if_pos ⟨rfl, hlimit⟩, ih, hsucc, List.drop_succ_cons]
    · have hzero : rest.length - limit = 0 := by omega
      have hzero' : rest.length + 1 - limit = 0 := by omega
      rw [if_neg (fun h => hlimit h.2), ih, hzero, hzero', List.drop_zero, List.drop_zero]

/-! ## What is dropped -/

/-- Every element is kept or dropped. -/
theorem perm_evicted_append_keepNewest :
    (evicted p limit l ++ keepNewest p limit l).Perm l := by
  induction l with
  | nil => exact List.Perm.refl _
  | cons b rest ih =>
    rw [evicted, keepNewest]
    split
    · exact ih.cons b
    · exact List.perm_middle.trans (ih.cons b)

/-! ## Two ways to compute it -/

/-- One pass, with a counter of the elements that are still to be dropped. -/
def dropCounting (p : β → Bool) : Nat → List β → List β
  | _, [] => []
  | excess, b :: rest =>
    if 0 < excess ∧ p b then dropCounting p (excess - 1) rest
    else b :: dropCounting p excess rest

theorem dropCounting_eq : dropCounting p (l.countP p - limit) l = keepNewest p limit l := by
  induction l with
  | nil => rfl
  | cons b rest ih =>
    rw [dropCounting, keepNewest]
    by_cases hb : p b = true
    · rw [List.countP_cons_of_pos hb]
      by_cases hlimit : limit ≤ rest.countP p
      · have hpred : rest.countP p + 1 - limit - 1 = rest.countP p - limit := by omega
        rw [if_pos ⟨by omega, hb⟩, if_pos ⟨hb, hlimit⟩, hpred, ih]
      · have hzero : rest.countP p + 1 - limit = rest.countP p - limit := by omega
        rw [if_neg (by omega), if_neg (fun h => hlimit h.2), hzero, ih]
    · rw [if_neg (fun h => hb h.2), if_neg (fun h => hb h.1), List.countP_cons_of_neg hb, ih]

/-- A loop that pops the front while the list is too long. -/
def popWhile (limit : Nat) : List β → List β
  | [] => []
  | b :: rest => if (b :: rest).length > limit then popWhile limit rest else b :: rest

theorem popWhile_eq : popWhile limit l = keepNewest (fun _ => true) limit l := by
  rw [keepNewest_true]
  induction l with
  | nil => exact List.drop_nil.symm
  | cons b rest ih =>
    rw [popWhile, List.length_cons]
    by_cases hlong : rest.length + 1 > limit
    · have hsucc : rest.length + 1 - limit = rest.length - limit + 1 := by omega
      rw [if_pos hlong, ih, hsucc, List.drop_succ_cons]
    · have hzero : rest.length + 1 - limit = 0 := by omega
      rw [if_neg hlong, hzero, List.drop_zero]

end Eviction
end Quietwire
