/-
  Quietwire.Support.Machine

  Deterministic machines that answer every input with an output: their runs on
  lists of inputs, the deletion of inputs that had no effect, and reachability
  by inputs that an environment is allowed to choose.
-/
import Mathlib.Data.List.Basic

namespace Quietwire
namespace Machine

variable {σ ι ω : Type} (step : σ → ι → σ × ω)

/-! ## Runs -/

/-- The state after a list of inputs, and the outputs along the way. -/
def run : σ → List ι → σ × List ω
  | s, [] => (s, [])
  | s, i :: inputs =>
    let rest := run (step s i).1 inputs
    (rest.1, (step s i).2 :: rest.2)

/-- The inputs of a run whose output is not in `drop`. -/
def prune (drop : ω → Bool) : σ → List ι → List ι
  | _, [] => []
  | s, i :: inputs =>
    if drop (step s i).2 then prune drop (step s i).1 inputs
    else i :: prune drop (step s i).1 inputs

/-- If the outputs in `drop` are only given by steps that leave the state alone, the
    inputs answered by them can be deleted from a run: nothing else changes. -/
theorem run_prune (drop : ω → Bool)
    (hdrop : ∀ s i, drop (step s i).2 = true → (step s i).1 = s) (s : σ) (inputs : List ι) :
    run step s (prune step drop s inputs) =
      ((run step s inputs).1, (run step s inputs).2.filter fun o => !drop o) := by
  induction inputs generalizing s with
  | nil => rfl
  | cons i inputs ih =>
    have hih := ih (step s i).1
    by_cases h : drop (step s i).2 = true
    · have hstay := hdrop s i h
      simp only [run, prune, h, if_true, List.filter_cons, Bool.not_true, Bool.false_eq_true,
        if_false]
      rw [← hih, hstay]
    · simp only [run, prune, h, if_false, List.filter_cons, Bool.not_false, if_true,
        Bool.false_eq_true]
      rw [hih]

/-! ## Reachability -/

/-- `t` is reached from `s` by inputs that are `allowed` where they are given. -/
inductive Reaches (allowed : σ → ι → Prop) (s : σ) : σ → Prop
  | refl : Reaches allowed s s
  | tail {t : σ} {i : ι} : Reaches allowed s t → allowed t i → Reaches allowed s (step t i).1

/-- Every input of a list is `allowed` where it is given. -/
def Allowed (allowed : σ → ι → Prop) : σ → List ι → Prop
  | _, [] => True
  | s, i :: inputs => allowed s i ∧ Allowed allowed (step s i).1 inputs

variable {step} {allowed : σ → ι → Prop} {s t u : σ}

theorem Reaches.single {i : ι} (h : allowed s i) : Reaches step allowed s (step s i).1 :=
  Reaches.refl.tail h

theorem Reaches.trans (hst : Reaches step allowed s t) (htu : Reaches step allowed t u) :
    Reaches step allowed s u := by
  induction htu with
  | refl => exact hst
  | tail _ hallowed ih => exact ih.tail hallowed

/-- The invariant rule: what every allowed step preserves holds in every state reached. -/
theorem Reaches.invariant {I : σ → Prop} (hI : ∀ v i, I v → allowed v i → I (step v i).1)
    (hst : Reaches step allowed s t) (hs : I s) : I t := by
  induction hst with
  | refl => exact hs
  | tail _ hallowed ih => exact hI _ _ ih hallowed

end Machine
end Quietwire
