/-
  Quietwire.Support.Transaction

  Computations in `EStateM`, whose state survives a failure as far as it got.
  The first part inverts successful runs: a `do` block that returned a value
  did so because each of its statements did.  The second part is a small
  calculus of atomicity: a block that fails only before its first write
  leaves the state alone when it fails.
-/
import Mathlib.Init

namespace Quietwire
namespace Transaction

variable {ε σ α β : Type}

/-! ## Successful runs -/

theorem bind_eq_ok_iff (x : EStateM ε σ α) (f : α → EStateM ε σ β) (s s' : σ) (b : β) :
    (x >>= f) s = .ok b s' ↔ ∃ a t, x s = .ok a t ∧ f a t = .ok b s' := by
  show EStateM.bind x f s = _ ↔ _
  unfold EStateM.bind
  cases x s with
  | ok a t =>
    refine ⟨fun h => ⟨a, t, rfl, h⟩, ?_⟩
    rintro ⟨_, _, ⟨⟩, h⟩
    exact h
  | error e t => simp

@[simp] theorem pure_eq_ok_iff (a b : α) (s s' : σ) :
    (pure a : EStateM ε σ α) s = .ok b s' ↔ a = b ∧ s = s' := by
  show EStateM.Result.ok a s = _ ↔ _
  simp

@[simp] theorem get_eq_ok_iff (s s' t : σ) :
    (get : EStateM ε σ σ) s = .ok t s' ↔ t = s ∧ s' = s := by
  show EStateM.Result.ok s s = _ ↔ _
  simp only [EStateM.Result.ok.injEq]
  exact and_congr eq_comm eq_comm

/-- A block that starts by reading the state runs on that state. -/
theorem get_bind (f : σ → EStateM ε σ α) (s : σ) :
    ((get : EStateM ε σ σ) >>= f) s = f s s := rfl

/-- A block that starts by writing the state runs on what it wrote. -/
theorem modify_bind (f : σ → σ) (g : PUnit → EStateM ε σ α) (s : σ) :
    ((modify f : EStateM ε σ PUnit) >>= g) s = g PUnit.unit (f s) := rfl

/-- A write is known by the state that it leaves. -/
theorem modify_congr {f g : σ → σ} {s : σ} (h : f s = g s) :
    (modify f : EStateM ε σ PUnit) s = (modify g : EStateM ε σ PUnit) s := by
  show EStateM.Result.ok PUnit.unit (f s) = EStateM.Result.ok PUnit.unit (g s)
  rw [h]

theorem pure_bind_apply (a : α) (f : α → EStateM ε σ β) (s : σ) :
    ((pure a : EStateM ε σ α) >>= f) s = f a s := rfl

/-- After a statement that returned a value, a block goes on with it. -/
theorem bind_of_ok {x : EStateM ε σ α} {s t : σ} {a : α} (h : x s = .ok a t)
    (f : α → EStateM ε σ β) : (x >>= f) s = f a t := by
  show EStateM.bind x f s = _
  rw [EStateM.bind, h]

@[simp] theorem modify_eq_ok_iff (f : σ → σ) (s s' : σ) (u : PUnit) :
    (modify f : EStateM ε σ PUnit) s = .ok u s' ↔ s' = f s := by
  show EStateM.Result.ok PUnit.unit (f s) = _ ↔ _
  simp only [EStateM.Result.ok.injEq, true_and]
  exact eq_comm

@[simp] theorem throw_ne_ok (e : ε) (s s' : σ) (a : α) :
    (throw e : EStateM ε σ α) s ≠ .ok a s' := by
  show EStateM.Result.error e s ≠ _
  simp

theorem throw_eq_error_iff (e e' : ε) (s s' : σ) :
    (throw e : EStateM ε σ α) s = .error e' s' ↔ e' = e ∧ s' = s := by
  show EStateM.Result.error e s = _ ↔ _
  rw [EStateM.Result.error.injEq]
  exact and_congr eq_comm eq_comm

/-! ## Atomicity -/

/-- A failure leaves the state as it was. -/
def Atomic (x : EStateM ε σ α) : Prop := ∀ s e s', x s = .error e s' → s' = s

/-- The state is left as it was, whether the computation fails or not. -/
structure ReadOnly (x : EStateM ε σ α) : Prop where
  ok : ∀ s a s', x s = .ok a s' → s' = s
  error : ∀ s e s', x s = .error e s' → s' = s

/-- The computation cannot fail. -/
def Total (x : EStateM ε σ α) : Prop := ∀ s e s', x s ≠ .error e s'

theorem bind_eq_error_iff (x : EStateM ε σ α) (f : α → EStateM ε σ β) (s s' : σ) (e : ε) :
    (x >>= f) s = .error e s' ↔
      x s = .error e s' ∨ ∃ a t, x s = .ok a t ∧ f a t = .error e s' := by
  show EStateM.bind x f s = _ ↔ _
  unfold EStateM.bind
  cases x s with
  | ok a t =>
    refine ⟨fun h => .inr ⟨a, t, rfl, h⟩, ?_⟩
    rintro (⟨⟨⟩⟩ | ⟨_, _, ⟨⟩, h⟩)
    exact h
  | error e t => simp

theorem Total.atomic {x : EStateM ε σ α} (h : Total x) : Atomic x :=
  fun s e s' hrun => absurd hrun (h s e s')

theorem ReadOnly.atomic {x : EStateM ε σ α} (h : ReadOnly x) : Atomic x := h.error

theorem ReadOnly.bind {x : EStateM ε σ α} {f : α → EStateM ε σ β} (hx : ReadOnly x)
    (hf : ∀ a, ReadOnly (f a)) : ReadOnly (x >>= f) where
  ok s b s' hrun := by
    obtain ⟨a, t, hxs, hft⟩ := (bind_eq_ok_iff x f s s' b).mp hrun
    exact ((hf a).ok t b s' hft).trans (hx.ok s a t hxs)
  error s e s' hrun := by
    rcases (bind_eq_error_iff x f s s' e).mp hrun with hxs | ⟨a, t, hxs, hft⟩
    · exact hx.error s e s' hxs
    · exact ((hf a).error t e s' hft).trans (hx.ok s a t hxs)

/-- Reading before an atomic block keeps it atomic. -/
theorem ReadOnly.bind_atomic {x : EStateM ε σ α} {f : α → EStateM ε σ β} (hx : ReadOnly x)
    (hf : ∀ a, Atomic (f a)) : Atomic (x >>= f) := by
  intro s e s' hrun
  rcases (bind_eq_error_iff x f s s' e).mp hrun with hxs | ⟨a, t, hxs, hft⟩
  · exact hx.error s e s' hxs
  · exact (hf a t e s' hft).trans (hx.ok s a t hxs)

theorem Total.bind {x : EStateM ε σ α} {f : α → EStateM ε σ β} (hx : Total x)
    (hf : ∀ a, Total (f a)) : Total (x >>= f) := by
  intro s e s' hrun
  rcases (bind_eq_error_iff x f s s' e).mp hrun with hxs | ⟨a, t, -, hft⟩
  · exact hx s e s' hxs
  · exact hf a t e s' hft

theorem readOnly_pure (a : α) : ReadOnly (pure a : EStateM ε σ α) where
  ok s b s' hrun := ((pure_eq_ok_iff a b s s').mp hrun).2.symm
  error s e s' hrun := by
    have h : EStateM.Result.ok a s = EStateM.Result.error e s' := hrun
    cases h

theorem readOnly_get : ReadOnly (get : EStateM ε σ σ) where
  ok s t s' hrun := ((get_eq_ok_iff s s' t).mp hrun).2
  error s e s' hrun := by
    have h : EStateM.Result.ok s s = EStateM.Result.error e s' := hrun
    cases h

theorem readOnly_throw (e : ε) : ReadOnly (throw e : EStateM ε σ α) where
  ok s a s' hrun := absurd hrun (throw_ne_ok e s s' a)
  error s e' s' hrun := by
    have h : EStateM.Result.error e s = EStateM.Result.error e' s' := hrun
    cases h
    rfl

theorem total_pure (a : α) : Total (pure a : EStateM ε σ α) := by
  intro s e s' hrun
  have h : EStateM.Result.ok a s = EStateM.Result.error e s' := hrun
  cases h

theorem total_modify (f : σ → σ) : Total (modify f : EStateM ε σ PUnit) := by
  intro s e s' hrun
  have h : EStateM.Result.ok PUnit.unit (f s) = EStateM.Result.error e s' := hrun
  cases h

/-! ## Without a state -/

theorem except_bind_eq_ok_iff {x : Except ε α} {f : α → Except ε β} {b : β} :
    (x >>= f) = .ok b ↔ ∃ a, x = .ok a ∧ f a = .ok b := by
  cases x with
  | ok a =>
    refine ⟨fun h => ⟨a, rfl, h⟩, ?_⟩
    rintro ⟨_, ⟨⟩, h⟩
    exact h
  | error e =>
    refine ⟨fun h => (by cases h), ?_⟩
    rintro ⟨_, h, -⟩
    cases h

end Transaction
end Quietwire
