import Mathlib.Order.Basic
import Mathlib.Algebra.Ring.Nat

namespace Wisebot.Lib

/-! A source that is called until it answers with nothing. A call that leaves its memory
is `none`. -/

universe u v

variable {σ : Type u} {α : Type v}

/-- What all calls have answered together. No call leaves its memory, none answers more
than `max` items, and the last one answers with nothing. -/
inductive Drained (call : σ → Option (List α × σ)) (max : Nat) : σ → List α → Prop
  | last {state next : σ} (called : call state = some ([], next)) : Drained call max state []
  | more {state next : σ} {answer others : List α} (called : call state = some (answer, next))
      (notEmpty : answer ≠ []) (short : answer.length ≤ max)
      (drained : Drained call max next others) : Drained call max state (answer ++ others)

section Calls

variable {call : σ → Option (List α × σ)} {max : Nat} {state next : σ} {answer : List α}

theorem drained_none (called : call state = none) (all : List α) :
    ¬ Drained call max state all := by
  intro drained
  cases drained with
  | last other =>
    rw [called] at other
    cases other
  | more other =>
    rw [called] at other
    cases other

theorem drained_last_iff (called : call state = some ([], next)) {all : List α} :
    Drained call max state all ↔ all = [] := by
  constructor
  · intro drained
    cases drained with
    | last => rfl
    | more other notEmpty =>
      rw [called] at other
      cases other
      exact absurd rfl notEmpty
  · rintro rfl
    exact .last called

theorem drained_more_iff (called : call state = some (answer, next)) (notEmpty : answer ≠ [])
    {all : List α} :
    Drained call max state all ↔
      answer.length ≤ max ∧ ∃ others, all = answer ++ others ∧ Drained call max next others := by
  constructor
  · intro drained
    cases drained with
    | last other =>
      rw [called] at other
      cases other
      exact absurd rfl notEmpty
    | more other _ short rest =>
      rw [called] at other
      cases other
      exact ⟨short, _, rfl, rest⟩
  · rintro ⟨short, others, rfl, rest⟩
    exact .more called notEmpty short rest

/-- Only what the first call does counts. -/
theorem drained_congr {other : σ} (same : call state = call other) {all : List α} :
    Drained call max state all ↔ Drained call max other all := by
  constructor
  · intro drained
    cases drained with
    | last called => exact .last (same ▸ called)
    | more called notEmpty short rest => exact .more (same ▸ called) notEmpty short rest
  · intro drained
    cases drained with
    | last called => exact .last (same.trans called)
    | more called notEmpty short rest => exact .more (same.trans called) notEmpty short rest

/-- The calls have one answer. -/
theorem Drained.unique {first second : List α} (one : Drained call max state first)
    (other : Drained call max state second) : first = second := by
  induction one generalizing second with
  | last called => exact ((drained_last_iff called).mp other).symm
  | more called notEmpty _ _ ih =>
    obtain ⟨_, others, rfl, rest⟩ := (drained_more_iff called notEmpty).mp other
    rw [ih rest]

end Calls

end Wisebot.Lib
