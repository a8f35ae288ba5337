import Mathlib.Algebra.BigOperators.Group.Finset.Piecewise
import Mathlib.Data.List.Basic

namespace Wisebot.Lib.Places

/-! Each item of a list with the items of its run that stand before it. A run goes
on as long as the items are the same as its first. -/

universe u v

variable {α : Type u} {β : Type v}

def placesFrom (same : α → α → Bool) : (run : List α) → List α → List (List α × α)
  | _, [] => []
  | run, item :: rest =>
    let before := if run.head?.any (same · item) then run else []
    (before, item) :: placesFrom same (before ++ [item]) rest

def places (same : α → α → Bool) (items : List α) : List (List α × α) := placesFrom same [] items

/-- The first item of the run. -/
def first (place : List α × α) : α := place.1.headD place.2

theorem map_snd_placesFrom (same : α → α → Bool) (run items : List α) :
    (placesFrom same run items).map Prod.snd = items := by
  induction items generalizing run with
  | nil => rfl
  | cons item rest ih => rw [placesFrom, List.map_cons, ih]

/-- When all items are the same there is one run. -/
theorem placesFrom_all (run : List α) (item : α) (rest : List α) :
    placesFrom (fun _ _ => true) run (item :: rest) =
      (run, item) :: placesFrom (fun _ _ => true) (run ++ [item]) rest := by
  cases run <;> rfl

theorem countP_places (same : α → α → Bool) (items : List α) (holds : α → Bool) :
    (places same items).countP (fun place => holds place.2) = items.countP holds := by
  conv_rhs => rw [← map_snd_placesFrom same [] items, List.countP_map]
  rfl

theorem mem_of_mem_placesFrom {same : α → α → Bool} {run items : List α} {place : List α × α}
    (member : place ∈ placesFrom same run items) :
    place.2 ∈ items ∧ ∀ item ∈ place.1, item ∈ run ++ items := by
  induction items generalizing run with
  | nil => cases member
  | cons item rest ih =>
    rw [placesFrom] at member
    have within : ∀ other ∈ (if run.head?.any (same · item) then run else []), other ∈ run := by
      intro other isBefore
      split at isBefore
      · exact isBefore
      · cases isBefore
    rcases List.mem_cons.mp member with rfl | later
    · exact ⟨List.mem_cons_self,
        fun other isBefore => List.mem_append_left _ (within other isBefore)⟩
    · obtain ⟨isItem, areBefore⟩ := ih later
      refine ⟨List.mem_cons_of_mem item isItem, fun other isBefore => ?_⟩
      have isOne := areBefore other isBefore
      simp only [List.mem_append, List.mem_cons, List.not_mem_nil, or_false] at isOne ⊢
      rcases isOne with (inRun | same) | inRest
      · exact .inl (within other inRun)
      · exact .inr (.inl same)
      · exact .inr (.inr inRest)

theorem first_mem {same : α → α → Bool} {items : List α} {place : List α × α}
    (member : place ∈ places same items) : first place ∈ items := by
  obtain ⟨isItem, areBefore⟩ := mem_of_mem_placesFrom member
  obtain ⟨before, item⟩ := place
  cases before with
  | nil => exact isItem
  | cons head rest => exact areBefore head List.mem_cons_self

/-- Counting by a second property leaves the ones that have it and the others. -/
theorem countP_split (items : List β) (holds other : β → Bool) :
    items.countP holds =
      items.countP (fun item => holds item && other item) +
        items.countP (fun item => holds item && !other item) := by
  induction items with
  | nil => rfl
  | cons item rest ih =>
    simp only [List.countP_cons, ih]
    cases holds item <;> cases other item <;> simp <;> omega

/-- All items together have as many values below a bound as they are. -/
theorem sum_countP {bound : Nat} (value : β → Nat) {items : List β}
    (inRange : ∀ item ∈ items, value item < bound) :
    ∑ number ∈ Finset.range bound, items.countP (fun item => value item = number) =
      items.length := by
  induction items with
  | nil => simp
  | cons item rest ih =>
    have here := inRange item List.mem_cons_self
    have later := ih fun other member => inRange other (List.mem_cons_of_mem item member)
    simp only [List.countP_cons, decide_eq_true_eq, Finset.sum_add_distrib, later,
      List.length_cons, Finset.sum_ite_eq, Finset.mem_range, here, if_true]

end Wisebot.Lib.Places
