/-
  Quietwire.Support.Paired

  Two lists whose entries correspond one by one, when one of them is looked up or
  overwritten.
-/
import Mathlib.Data.List.Basic

namespace Quietwire
namespace Paired

variable {α β : Type} {R S : α → β → Prop} {l : List α} {m : List β} {i : Nat} {a : α} {b : β}

theorem getElem? (h : List.Forall₂ R l m) (ha : l[i]? = some a) :
    ∃ b, m[i]? = some b ∧ R a b := by
  induction h generalizing i with
  | nil => cases ha
  | cons hab _ ih =>
    cases i with
    | zero =>
      obtain rfl := Option.some.inj ha
      exact ⟨_, rfl, hab⟩
    | succ i => exact ih ha

theorem imp_of_mem (h : List.Forall₂ R l m) (himp : ∀ a b, b ∈ m → R a b → S a b) :
    List.Forall₂ S l m := by
  induction h with
  | nil => exact .nil
  | cons hab _ ih =>
    exact .cons (himp _ _ List.mem_cons_self hab)
      (ih fun a b hb => himp a b (List.mem_cons_of_mem _ hb))

/-- An entry is overwritten, and the others correspond as they are. -/
theorem set (h : List.Forall₂ R l m) (hnodup : m.Nodup) (hb : m[i]? = some b) (hab : S a b)
    (hrest : ∀ a' b', b' ∈ m → b' ≠ b → R a' b' → S a' b') : List.Forall₂ S (l.set i a) m := by
  induction h generalizing i with
  | nil => cases hb
  | @cons a₁ b₁ l m hfirst htail ih =>
    obtain ⟨hnot, hnodup⟩ := List.nodup_cons.mp hnodup
    cases i with
    | zero =>
      obtain rfl := Option.some.inj hb
      exact .cons hab (imp_of_mem htail fun a' b' hmem =>
        hrest a' b' (List.mem_cons_of_mem _ hmem) fun heq => hnot (heq ▸ hmem))
    | succ i =>
      have hmem : b ∈ m := List.mem_of_getElem? hb
      refine .cons (hrest a₁ b₁ List.mem_cons_self (fun heq => hnot (heq ▸ hmem)) hfirst) ?_
      exact ih hnodup hb fun a' b' h => hrest a' b' (List.mem_cons_of_mem _ h)

end Paired
end Quietwire
