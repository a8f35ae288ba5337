import Mathlib.Data.List.Basic

namespace Wisebot.Lib

/-! Programs over a state that may fail, which keeps the state, or go wrong, after
which there is nothing to say. -/

/-- `none` is a program that has gone wrong, `some (none, state)` one that has failed. -/
def Reading (σ α : Type) := σ → Option (Option α × σ)

namespace Reading

variable {σ α β : Type}

def andThen (program : Reading σ α) (next : α → Reading σ β) : Reading σ β := fun state =>
  match program state with
  | none => none
  | some (none, failed) => some (none, failed)
  | some (some value, after) => next value after

instance : Monad (Reading σ) where
  pure value := fun state => some (some value, state)
  bind := andThen

/-- Fails where the condition does not hold. -/
def ensure (condition : Prop) [Decidable condition] : Reading σ Unit := fun state =>
  if condition then some (some (), state) else some (none, state)

/-- Goes wrong where the condition does not hold. -/
def require (condition : Prop) [Decidable condition] : Reading σ Unit := fun state =>
  if condition then some (some (), state) else none

def gets (field : σ → α) : Reading σ α := fun state => some (some (field state), state)

def update (change : σ → σ) : Reading σ Unit := fun state => some (some (), change state)

/-- The failure of a program as a value. -/
def attempt (program : Reading σ α) : Reading σ (Option α) := fun state =>
  (program state).map fun outcome => (some outcome.1, outcome.2)

section Sequence

variable {program : Reading σ α} {next : α → Reading σ β} {state after : σ} {value : α}

theorem bind_of_wrong (wrong : program state = none) : (program >>= next) state = none := by
  change andThen program next state = none
  rw [andThen, wrong]

theorem bind_of_failed (failed : program state = some (none, after)) :
    (program >>= next) state = some (none, after) := by
  change andThen program next state = _
  rw [andThen, failed]

theorem bind_of_ends (ends : program state = some (some value, after)) :
    (program >>= next) state = next value after := by
  change andThen program next state = _
  rw [andThen, ends]

end Sequence

variable {state after : σ} {value : α}

section Frame

variable {γ : Type} {field : σ → γ} {program : Reading σ α}

end Frame

/-- The program ends with a value and a state that are `good`, or fails in a state that
is `bearable`. -/
def Meets (program : Reading σ α) (good : α → σ → Prop) (bearable : σ → Prop) (state : σ) : Prop :=
  (∃ value after, program state = some (some value, after) ∧ good value after) ∨
    ∃ after, program state = some (none, after) ∧ bearable after

variable {program : Reading σ α} {good : α → σ → Prop} {bearable : σ → Prop}

theorem Meets.mono {better : α → σ → Prop} {safer : σ → Prop}
    (meets : Meets program better safer state) (isGood : ∀ value after, better value after →
      good value after) (isBearable : ∀ after, safer after → bearable after) :
    Meets program good bearable state := by
  rcases meets with ⟨value, after, ends, holds⟩ | ⟨after, fails, holds⟩
  · exact .inl ⟨value, after, ends, isGood value after holds⟩
  · exact .inr ⟨after, fails, isBearable after holds⟩

theorem meets_pure (isGood : good value state) :
    Meets (pure value : Reading σ α) good bearable state :=
  .inl ⟨value, state, rfl, isGood⟩

theorem Meets.bind {next : α → Reading σ β} {good : β → σ → Prop}
    (meets : Meets program (fun value after => Meets (next value) good bearable after) bearable
      state) : Meets (program >>= next) good bearable state := by
  rcases meets with ⟨value, after, ends, rest⟩ | ⟨after, fails, holds⟩
  · rw [Meets, bind_of_ends ends]
    exact rest
  · exact .inr ⟨after, bind_of_failed fails, holds⟩

theorem meets_ensure {condition : Prop} [Decidable condition] {good : Unit → σ → Prop}
    (isGood : condition → good () state) (isBearable : ¬condition → bearable state) :
    Meets (ensure condition) good bearable state := by
  unfold Meets ensure
  by_cases holds : condition
  · rw [if_pos holds]
    exact .inl ⟨(), state, rfl, isGood holds⟩
  · rw [if_neg holds]
    exact .inr ⟨state, rfl, isBearable holds⟩

theorem meets_require {condition : Prop} [Decidable condition] {good : Unit → σ → Prop}
    (holds : condition) (isGood : good () state) :
    Meets (require condition) good bearable state :=
  .inl ⟨(), state, if_pos holds, isGood⟩

theorem meets_gets {field : σ → α} (isGood : good (field state) state) :
    Meets (gets field) good bearable state :=
  .inl ⟨_, state, rfl, isGood⟩

theorem meets_update {change : σ → σ} {good : Unit → σ → Prop} (isGood : good () (change state)) :
    Meets (update change) good bearable state :=
  .inl ⟨(), _, rfl, isGood⟩

theorem meets_attempt {good : Option α → σ → Prop}
    (meets : Meets program (fun value => good (some value)) (good none) state) :
    Meets (attempt program) good bearable state := by
  rcases meets with ⟨value, after, ends, holds⟩ | ⟨after, fails, holds⟩
  · exact .inl ⟨some value, after, by rw [attempt, ends]; rfl, holds⟩
  · exact .inl ⟨none, after, by rw [attempt, fails]; rfl, holds⟩

end Reading

/-- A program has gone wrong, has failed, or has ended with a value. -/
inductive Outcome (α : Type) where
  | wrong
  | failed
  | ended (value : α)
deriving DecidableEq

namespace Outcome

variable {α β : Type}

def bind (outcome : Outcome α) (next : α → Outcome β) : Outcome β :=
  match outcome with
  | wrong => wrong
  | failed => failed
  | ended value => next value

@[simp] theorem failed_bind (next : α → Outcome β) : failed.bind next = failed := rfl

@[simp] theorem ended_bind (value : α) (next : α → Outcome β) :
    (ended value).bind next = next value := rfl

end Outcome

namespace Reading

variable {σ α β : Type}

/-- How a program ends, without the state that a failure leaves. -/
def outcome (program : Reading σ α) (state : σ) : Outcome (α × σ) :=
  match program state with
  | none => .wrong
  | some (none, _) => .failed
  | some (some value, after) => .ended (value, after)

variable {program : Reading σ α} {next : α → Reading σ β} {state : σ}

theorem outcome_bind :
    outcome (program >>= next) state =
      (outcome program state).bind fun ended => outcome (next ended.1) ended.2 := by
  rw [outcome, outcome]
  rcases ran : program state with _ | ⟨_ | value, after⟩
  · rw [bind_of_wrong ran]
    rfl
  · rw [bind_of_failed ran]
    rfl
  · rw [bind_of_ends ran]
    rfl

@[simp] theorem outcome_pure (value : α) :
    outcome (pure value : Reading σ α) state = .ended (value, state) := rfl

@[simp] theorem outcome_update (change : σ → σ) :
    outcome (update change) state = .ended ((), change state) := rfl

theorem outcome_ensure {condition : Prop} [Decidable condition] :
    outcome (ensure condition) state = if condition then .ended ((), state) else .failed := by
  unfold outcome ensure
  by_cases holds : condition
  · simp [holds]
  · simp [holds]

theorem outcome_require {condition : Prop} [Decidable condition] :
    outcome (require condition) state = if condition then .ended ((), state) else .wrong := by
  unfold outcome require
  by_cases holds : condition
  · simp [holds]
  · simp [holds]

section Steps

variable {after : σ} {value : α}

theorem outcome_bind_of_ended (ended : outcome program state = .ended (value, after)) :
    outcome (program >>= next) state = outcome (next value) after := by
  rw [outcome_bind, ended]
  rfl

theorem outcome_bind_of_failed (failed : outcome program state = .failed) :
    outcome (program >>= next) state = .failed := by
  rw [outcome_bind, failed]
  rfl

theorem outcome_bind_of_wrong (wrong : outcome program state = .wrong) :
    outcome (program >>= next) state = .wrong := by
  rw [outcome_bind, wrong]
  rfl

theorem outcome_bind_congr {other : Reading σ α} {elsewhere : σ}
    (same : outcome program state = outcome other elsewhere) :
    outcome (program >>= next) state = outcome (other >>= next) elsewhere := by
  rw [outcome_bind, same, ← outcome_bind]

theorem outcome_gets_bind {field : σ → α} :
    outcome (gets field >>= next) state = outcome (next (field state)) state :=
  outcome_bind_of_ended rfl

theorem outcome_update_bind {change : σ → σ} {next : Unit → Reading σ β} :
    outcome (update change >>= next) state = outcome (next ()) (change state) :=
  outcome_bind_of_ended rfl

theorem outcome_ensure_bind {condition : Prop} [Decidable condition]
    {next : Unit → Reading σ β} :
    outcome (ensure condition >>= next) state =
      if condition then outcome (next ()) state else .failed := by
  by_cases holds : condition
  · rw [if_pos holds, outcome_bind_of_ended (by rw [outcome_ensure, if_pos holds])]
  · rw [if_neg holds, outcome_bind_of_failed (by rw [outcome_ensure, if_neg holds])]

theorem outcome_require_bind {condition : Prop} [Decidable condition]
    {next : Unit → Reading σ β} :
    outcome (require condition >>= next) state =
      if condition then outcome (next ()) state else .wrong := by
  by_cases holds : condition
  · rw [if_pos holds, outcome_bind_of_ended (by rw [outcome_require, if_pos holds])]
  · rw [if_neg holds, outcome_bind_of_wrong (by rw [outcome_require, if_neg holds])]

end Steps

/-- Rounds as long as they ask for another one; more than `fuel` of them go wrong. -/
def loop (round : Reading σ Bool) : (fuel : Nat) → Reading σ Unit
  | 0 => fun _ => none
  | fuel + 1 => do
      let again ← round
      if again then loop round fuel else pure ()

section Loops

variable {round : Reading σ Bool} {fuel : Nat} {after : σ}

theorem outcome_loop_again (again : outcome round state = .ended (true, after)) :
    outcome (loop round (fuel + 1)) state = outcome (loop round fuel) after := by
  rw [loop, outcome_bind_of_ended again, if_pos rfl]

theorem outcome_loop_stop (stop : outcome round state = .ended (false, after)) :
    outcome (loop round (fuel + 1)) state = .ended ((), after) := by
  rw [loop, outcome_bind_of_ended stop, if_neg Bool.false_ne_true, outcome_pure]

theorem outcome_loop_wrong (wrong : outcome round state = .wrong) :
    outcome (loop round (fuel + 1)) state = .wrong := by
  rw [loop, outcome_bind_of_wrong wrong]

end Loops

end Reading

end Wisebot.Lib
