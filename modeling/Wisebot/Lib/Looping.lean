import Mathlib.Order.Basic
import Mathlib.Algebra.Ring.Nat

namespace Wisebot.Lib.Looping

/-! Loops by their rounds: a round goes on with a new state or leaves with a
result, and is itself `none` where a loop inside it has not come to its end in the
rounds that it was given. -/

universe u v

variable {σ : Type u} {ρ : Type v}

inductive Round (σ : Type u) (ρ : Type v) where
  | again (state : σ)
  | leave (result : ρ)

def run (round : σ → Option (Round σ ρ)) : (rounds : Nat) → σ → Option ρ
  | 0, _ => none
  | rounds + 1, state =>
    match round state with
    | none => none
    | some (.again next) => run round rounds next
    | some (.leave result) => some result

section Steps

variable {round : σ → Option (Round σ ρ)} {rounds : Nat} {state next : σ} {result : ρ}

theorem run_of_none (stays : round state = none) : run round rounds state = none := by
  cases rounds with
  | zero => rfl
  | succ rounds => simp only [run, stays]

theorem run_of_again (goes : round state = some (.again next)) :
    run round (rounds + 1) state = run round rounds next := by
  simp only [run, goes]

theorem run_of_leave (leaves : round state = some (.leave result)) :
    run round (rounds + 1) state = some result := by
  simp only [run, leaves]

end Steps

/-- What the one has found, the other finds too. -/
def Extends (first second : σ → Option ρ) : Prop :=
  ∀ state result, first state = some result → second state = some result

/-- More rounds, also for the loops inside, change no result. -/
theorem run_extends {round more : σ → Option (Round σ ρ)} (extended : Extends round more)
    {rounds enough : Nat} (isMore : rounds ≤ enough) :
    Extends (run round rounds) (run more enough) := by
  induction rounds generalizing enough with
  | zero =>
    intro state result found
    cases found
  | succ rounds ih =>
    obtain ⟨enough, rfl⟩ : ∃ fewer, enough = fewer + 1 :=
      ⟨enough - 1, by omega⟩
    intro state result found
    cases goes : round state with
    | none =>
      rw [run_of_none goes] at found
      cases found
    | some step =>
      have alsoGoes := extended state step goes
      cases step with
      | again next =>
        rw [run_of_again goes] at found
        rw [run_of_again alsoGoes]
        exact ih (by omega) next result found
      | leave final =>
        rw [run_of_leave goes] at found
        rw [run_of_leave alsoGoes]
        exact found

/-- A loop ends when each of its rounds ends and brings something down. -/
theorem run_isSome_of_measure {round : σ → Option (Round σ ρ)} (measure : σ → Nat) (fuel : Nat)
    (ends : ∀ state, measure state < fuel → (round state).isSome)
    (falls : ∀ state next, round state = some (.again next) → measure next < measure state)
    {rounds : Nat} {state : σ} (enough : measure state < rounds) (within : rounds ≤ fuel) :
    (run round rounds state).isSome := by
  induction rounds generalizing state with
  | zero => omega
  | succ rounds ih =>
    obtain ⟨step, goes⟩ := Option.isSome_iff_exists.mp (ends state (by omega))
    cases step with
    | again next =>
      have lower := falls state next goes
      rw [run_of_again goes]
      exact ih (by omega) (by omega)
    | leave result =>
      rw [run_of_leave goes]
      rfl

/-- A loop whose rounds lead from standing states to standing states never ends. -/
theorem run_eq_none_of_standing {round : σ → Option (Round σ ρ)} (standing : σ → Prop)
    (stands : ∀ state, standing state → ∃ next, round state = some (.again next) ∧ standing next)
    {state : σ} (isStanding : standing state) (rounds : Nat) :
    run round rounds state = none := by
  induction rounds generalizing state with
  | zero => rfl
  | succ rounds ih =>
    obtain ⟨next, goes, nextStands⟩ := stands state isStanding
    rw [run_of_again goes]
    exact ih nextStands

end Wisebot.Lib.Looping
