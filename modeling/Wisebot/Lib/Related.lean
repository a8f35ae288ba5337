import Mathlib.Data.List.Forall2
import Mathlib.Algebra.Ring.Nat

namespace Wisebot.Lib

/-! Lists that go along with each other. -/

/-- The first of the elements with a property on both sides. -/
theorem find_rel {α β : Type} {related : α → β → Prop} {left : α → Bool} {right : β → Bool}
    {first : List α} {second : List β} (all : List.Forall₂ related first second)
    (agree : ∀ a b, related a b → left a = right b) :
    Option.Rel related (first.find? left) (second.find? right) := by
  induction all with
  | nil => exact .none
  | @cons a b first second isRelated _ induction =>
    rw [List.find?_cons, List.find?_cons, agree a b isRelated]
    cases right b with
    | false => exact induction
    | true => exact .some isRelated

section Found

variable {α β : Type} {related : α → β → Prop} {left : α → Bool} {right : β → Bool}
  {first : List α} {second : List β}

end Found

theorem related_trans {α β γ : Type} {first : α → β → Prop} {second : β → γ → Prop}
    {both : α → γ → Prop} {left : List α} {middle : List β} {right : List γ}
    (compose : ∀ a b c, first a b → second b c → both a c)
    (isFirst : List.Forall₂ first left middle) (isSecond : List.Forall₂ second middle right) :
    List.Forall₂ both left right := by
  induction isFirst generalizing right with
  | nil =>
    cases isSecond
    exact .nil
  | cons here _ induction =>
    cases isSecond with
    | cons next rest => exact .cons (compose _ _ _ here next) (induction rest)

end Wisebot.Lib
