/-
  Quietwire.Support.Derivation

  What follows from a set of known terms by rules, each giving one conclusion
  from finitely many premises: the closure that a symbolic attacker computes.

  Secrecy is shown by a set of guarded terms: when nothing known is guarded and
  every rule that concludes a guarded term needs a guarded premise, no guarded
  term follows.
-/
import Mathlib.Data.Set.Basic

namespace Quietwire

variable {τ : Type}

/-- The terms that follow from `known`. -/
inductive Derives (rule : List τ → τ → Prop) (known : Set τ) : τ → Prop
  | known {t : τ} (h : t ∈ known) : Derives rule known t
  | rule {premises : List τ} {t : τ} (h : rule premises t)
      (hpremises : ∀ p ∈ premises, Derives rule known p) : Derives rule known t

/-- Every rule that concludes a guarded term has a guarded premise. -/
def Guarding (rule : List τ → τ → Prop) (guarded : τ → Prop) : Prop :=
  ∀ premises t, rule premises t → guarded t → ∃ p ∈ premises, guarded p

namespace Derives

variable {rule : List τ → τ → Prop} {known : Set τ}

/-- Guarded terms do not follow from unguarded ones. -/
theorem not_guarded {guarded : τ → Prop} (hrule : Guarding rule guarded)
    (hknown : ∀ t ∈ known, ¬ guarded t) {t : τ} (h : Derives rule known t) : ¬ guarded t := by
  induction h with
  | known ht => exact hknown _ ht
  | rule happlies hpremises ih =>
    intro hguarded
    obtain ⟨p, hp, hpGuarded⟩ := hrule _ _ happlies hguarded
    exact ih p hp hpGuarded

end Derives

end Quietwire
