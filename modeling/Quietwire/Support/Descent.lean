/-
  Quietwire.Support.Descent

  Checks that call themselves on smaller arguments, and what they are meant to decide.

  A condition on one argument is local when it makes the check right there, provided
  that it is right on the arguments it goes on to.  Then the check is right on an
  argument from which it visits only ones where the condition holds.
-/
import Mathlib.Logic.Relation

namespace Quietwire
namespace Descent

open Relation

variable {α : Type} {child : α → α → Prop} {check meaning sound : α → Prop}

/-- That `sound` is local. -/
def Local (child : α → α → Prop) (check meaning sound : α → Prop) : Prop :=
  ∀ a, sound a → (∀ b, child a b → (check b ↔ meaning b)) → (check a ↔ meaning a)

/-- A sound argument, from which only sound ones are visited, is judged rightly. -/
theorem Local.right (h : Local child check meaning sound) (measure : α → Nat)
    (hmeasure : ∀ a b, child a b → measure b < measure a) (a : α)
    (hsound : ∀ b, ReflTransGen child a b → sound b) : check a ↔ meaning a := by
  refine h a (hsound a .refl) ?_
  intro b hb
  have hlt := hmeasure a b hb
  exact Local.right h measure hmeasure b fun c hc => hsound c (.head hb hc)
termination_by measure a

end Descent
end Quietwire
