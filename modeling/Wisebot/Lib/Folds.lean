import Mathlib.Algebra.Ring.Nat
import Mathlib.Data.List.Basic

namespace Wisebot.Lib

/-! Folds that look through lists for an item: a value becomes good where a wanted item is
met. -/

variable {α β γ : Type} {inv good : γ → Prop}

/-- A step keeps the invariant and makes the best value good just at a wanted item. -/
def Finds (inv good : γ → Prop) (wanted : α → Prop) (step : γ → α → γ) : Prop :=
  ∀ best item, inv best → inv (step best item) ∧ (good (step best item) ↔ good best ∨ wanted item)

theorem Finds.foldl {wanted : α → Prop} {step : γ → α → γ} (finds : Finds inv good wanted step)
    (items : List α) (best : γ) (start : inv best) :
    inv (items.foldl step best) ∧
      (good (items.foldl step best) ↔ good best ∨ ∃ item ∈ items, wanted item) := by
  induction items generalizing best with
  | nil => exact ⟨start, by simp⟩
  | cons item items ih =>
    obtain ⟨kept, found⟩ := finds best item start
    obtain ⟨atEnd, foundEnd⟩ := ih (step best item) kept
    refine ⟨atEnd, ?_⟩
    rw [List.foldl_cons, foundEnd, found, List.exists_mem_cons_iff, or_assoc]

/-- A loop inside a loop. -/
theorem Finds.nested {wanted : α → β → Prop} {step : α → γ → β → γ}
    (finds : ∀ item, Finds inv good (wanted item) (step item)) (others : List β) :
    Finds inv good (fun item => ∃ other ∈ others, wanted item other)
      (fun best item => others.foldl (step item) best) :=
  fun _ item start => (finds item).foldl others _ start

/-- A loop that passes some items over. -/
theorem Finds.guarded {wanted : α → Prop} {step : γ → α → γ} (finds : Finds inv good wanted step)
    (usable : α → Bool) :
    Finds inv good (fun item => usable item = true ∧ wanted item)
      (fun best item => if usable item then step best item else best) := by
  intro best item start
  beta_reduce
  cases use : usable item with
  | true => simpa using finds best item start
  | false => simpa using start

/-- A minimum is small where one of the values is. -/
theorem finds_min {wanted : α → Prop} {value : α → Nat} {dist : Nat}
    (isSmall : ∀ item, value item ≤ dist ↔ wanted item) :
    Finds (fun _ => True) (· ≤ dist) wanted
      (fun best item => if value item < best then value item else best) := by
  intro best item _
  refine ⟨trivial, ?_⟩
  rw [← isSmall]
  beta_reduce
  split <;> omega

end Wisebot.Lib
