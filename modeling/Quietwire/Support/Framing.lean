/-
  Quietwire.Support.Framing

  Texts that tell where they end: printers whose output, followed by anything that
  may follow it, was printed from one value only.
-/
import Mathlib.Data.List.Basic

namespace Quietwire
namespace Framing

variable {α β γ : Type}

/-- Whatever follows, as `follows` allows it, the text of `a` is no other value's text with
    something else behind it. -/
def Unambiguous (print : α → List γ) (follows : List γ → Prop) (a : α) : Prop :=
  ∀ b s t, follows s → follows t → print a ++ s = print b ++ t → a = b ∧ s = t

variable {print : α → List γ} {follows : List γ → Prop} {a : α}

/-- Where nothing need follow, the text determines the value. -/
theorem Unambiguous.eq (h : Unambiguous print follows a) (hnil : follows []) {b : α}
    (heq : print a = print b) : a = b :=
  (h b [] [] hnil hnil (by rw [heq])).1

/-- A printer that a reader inverts needs no restriction on what follows. -/
theorem Unambiguous.of_reader {read : List γ → Option (α × List γ)}
    (hread : ∀ a s, read (print a ++ s) = some (a, s)) (follows : List γ → Prop) (a : α) :
    Unambiguous print follows a := by
  intro b s t _ _ heq
  have hboth := (hread a s).symm.trans ((congrArg read heq).trans (hread b t))
  cases hboth
  exact ⟨rfl, rfl⟩

/-- Something fixed in front does not matter. -/
theorem Unambiguous.prepend (h : Unambiguous print follows a) (front : List γ) :
    Unambiguous (fun a => front ++ print a) follows a := by
  intro b s t hs ht heq
  rw [List.append_assoc, List.append_assoc] at heq
  exact h b s t hs ht (List.append_cancel_left heq)

/-- A text up to the first letter that it cannot hold. -/
theorem eq_of_span {p : γ → Bool} {u v s t : List γ} (hu : ∀ c ∈ u, p c = true)
    (hv : ∀ c ∈ v, p c = true) (hs : ∀ c ∈ s.head?, p c = false) (ht : ∀ c ∈ t.head?, p c = false)
    (heq : u ++ s = v ++ t) : u = v ∧ s = t := by
  have hspan : ∀ {u s : List γ}, (∀ c ∈ u, p c = true) → (∀ c ∈ s.head?, p c = false) →
      (u ++ s).takeWhile p = u := by
    intro u s hu hs
    rw [List.takeWhile_append_of_pos hu]
    cases s with
    | nil => simp
    | cons c s => simp [hs c rfl]
  have huv : u = v := by
    rw [← hspan hu hs, heq, hspan hv ht]
  subst huv
  exact ⟨rfl, List.append_cancel_left heq⟩

/-! ## Lists -/

/-- The texts of a list's elements one after the other, up to a letter that starts none of
    them. -/
theorem flatMap_inj (print : α → List γ) (follows : List γ → Prop) {close : γ}
    (hclose : ∀ s, follows (close :: s)) (hnext : ∀ a s, follows (print a ++ s))
    (hhead : ∀ a s t, print a ++ s ≠ close :: t) {l : List α}
    (hl : ∀ a ∈ l, Unambiguous print follows a) {l' : List α} {s t : List γ}
    (heq : l.flatMap print ++ close :: s = l'.flatMap print ++ close :: t) : l = l' ∧ s = t := by
  -- what follows an element is another one or the end
  have hrest : ∀ (l : List α) (s : List γ), follows (l.flatMap print ++ close :: s) := by
    intro l s
    cases l with
    | nil => exact hclose s
    | cons a l =>
      rw [List.flatMap_cons, List.append_assoc]
      exact hnext a _
  induction l generalizing l' with
  | nil =>
    cases l' with
    | nil => exact ⟨rfl, (List.cons.inj heq).2⟩
    | cons b l' =>
      rw [List.flatMap_cons, List.append_assoc] at heq
      exact absurd heq.symm (hhead b _ _)
  | cons a l ih =>
    cases l' with
    | nil =>
      rw [List.flatMap_cons, List.append_assoc] at heq
      exact absurd heq (hhead a _ _)
    | cons b l' =>
      rw [List.flatMap_cons, List.flatMap_cons, List.append_assoc, List.append_assoc] at heq
      -- the first elements agree, and so does what comes behind them
      obtain ⟨rfl, htail⟩ := hl a List.mem_cons_self b _ _ (hrest l s) (hrest l' t) heq
      obtain ⟨rfl, rfl⟩ := ih (fun a ha => hl a (List.mem_cons_of_mem _ ha)) htail
      exact ⟨rfl, rfl⟩

/-- The first element of a list, and the others with the separator in front. -/
theorem intercalate_cons (separator : List γ) (text : List γ) (texts : List (List γ)) :
    separator.intercalate (text :: texts) = text ++ texts.flatMap (separator ++ ·) := by
  induction texts generalizing text with
  | nil => simp
  | cons next texts ih =>
    rw [List.intercalate_cons_cons, ih, List.flatMap_cons, List.append_assoc, List.append_assoc]

/-- The texts of a list's elements with a separator between them, up to a letter that starts
    neither the separator nor an element. -/
theorem intercalate_inj {close comma : γ} {blank : List γ} (hne : comma ≠ close)
    (hclose : ∀ s, follows (close :: s)) (hcomma : ∀ s, follows (comma :: s))
    (hhead : ∀ a s t, print a ++ s ≠ close :: t)
    {l : List α} (hl : ∀ a ∈ l, Unambiguous print follows a) {l' : List α} {s t : List γ}
    (heq : (comma :: blank).intercalate (l.map print) ++ close :: s
      = (comma :: blank).intercalate (l'.map print) ++ close :: t) : l = l' ∧ s = t := by
  have hrest : ∀ (l : List α) (s : List γ),
      follows (l.flatMap (fun a => (comma :: blank) ++ print a) ++ close :: s) := by
    intro l s
    cases l with
    | nil => exact hclose s
    | cons a l => exact hcomma _
  cases l with
  | nil =>
    cases l' with
    | nil => exact ⟨rfl, (List.cons.inj heq).2⟩
    | cons b l' =>
      rw [List.map_cons, intercalate_cons, List.append_assoc] at heq
      exact absurd heq.symm (hhead b _ _)
  | cons a l =>
    cases l' with
    | nil =>
      rw [List.map_cons, intercalate_cons, List.append_assoc] at heq
      exact absurd heq (hhead a _ _)
    | cons b l' =>
      rw [List.map_cons, List.map_cons, intercalate_cons, intercalate_cons, List.flatMap_map,
        List.flatMap_map, List.append_assoc, List.append_assoc] at heq
      obtain ⟨rfl, htail⟩ := hl a List.mem_cons_self b _ _ (hrest l s) (hrest l' t) heq
      -- the others are printed with the separator in front
      obtain ⟨rfl, rfl⟩ := flatMap_inj (fun a => (comma :: blank) ++ print a) follows hclose
        (fun a s => hcomma _) (fun a s t hfirst => hne (List.cons.inj hfirst).1)
        (fun a ha => (hl a (List.mem_cons_of_mem _ ha)).prepend _) htail
      exact ⟨rfl, rfl⟩

end Framing
end Quietwire
