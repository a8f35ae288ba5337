namespace Wisebot.Lib

/-! Labelled transition systems given by a partial step function. -/

variable {σ ε : Type}

/-- States reached by runs all of whose steps were taken where `allowed`
held of the state and the label. -/
inductive Reach (step : σ → ε → Option σ) (allowed : σ → ε → Prop)
    (start : σ) : σ → Prop
  | start : Reach step allowed start start
  | step {state next : σ} (label : ε)
      (reached : Reach step allowed start state)
      (guard : allowed state label)
      (stepped : step state label = some next) :
      Reach step allowed start next

theorem Reach.invariant
    {step : σ → ε → Option σ} {allowed : σ → ε → Prop} {start : σ}
    (inv : σ → Prop) (base : inv start)
    (preserved : ∀ state label next, inv state → allowed state label →
      step state label = some next → inv next)
    {state : σ} (reached : Reach step allowed start state) : inv state := by
  induction reached with
  | start => exact base
  | step label _ guard stepped induction =>
    exact preserved _ label _ induction guard stepped

/-- Run a schedule of labels, failing where a step is not enabled. -/
def runSchedule (step : σ → ε → Option σ) : σ → List ε → Option σ
  | state, [] => some state
  | state, label :: rest =>
    match step state label with
    | none => none
    | some next => runSchedule step next rest

theorem Reach.of_runSchedule
    {step : σ → ε → Option σ} {start state final : σ} (schedule : List ε)
    (reached : Reach step (fun _ _ => True) start state)
    (ran : runSchedule step state schedule = some final) :
    Reach step (fun _ _ => True) start final := by
  induction schedule generalizing state with
  | nil =>
    cases ran
    exact reached
  | cons label rest induction =>
    simp only [runSchedule] at ran
    cases stepped : step state label with
    | none => simp [stepped] at ran
    | some next =>
      rw [stepped] at ran
      exact induction (reached.step label trivial stepped) ran

/-- The step where it is allowed. -/
def guardedStep (step : σ → ε → Option σ) (allowed : σ → ε → Prop)
    [∀ state label, Decidable (allowed state label)] (state : σ) (label : ε) : Option σ :=
  if allowed state label then step state label else none

theorem Reach.of_guardedSchedule
    {step : σ → ε → Option σ} {allowed : σ → ε → Prop}
    [∀ state label, Decidable (allowed state label)] {start state final : σ}
    (schedule : List ε) (reached : Reach step allowed start state)
    (ran : runSchedule (guardedStep step allowed) state schedule = some final) :
    Reach step allowed start final := by
  induction schedule generalizing state with
  | nil =>
    cases ran
    exact reached
  | cons label rest induction =>
    simp only [runSchedule] at ran
    by_cases guard : allowed state label
    · rw [guardedStep, if_pos guard] at ran
      cases stepped : step state label with
      | none => simp [stepped] at ran
      | some next =>
        rw [stepped] at ran
        exact induction (reached.step label guard stepped) ran
    · simp [guardedStep, if_neg guard] at ran

end Wisebot.Lib
