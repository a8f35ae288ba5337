import Mathlib.Algebra.Order.Ring.Nat
import Mathlib.Data.List.Basic
import Mathlib.Data.List.Infix

namespace Wisebot.Lib.Occurrence

variable {α : Type} [DecidableEq α]

/-! The first place at which a list holds a pattern, searched part by part. -/

def firstOccurrence (pattern : List α) : List α → Option Nat
  | [] => if pattern = [] then some 0 else none
  | item :: items =>
    if pattern.isPrefixOf (item :: items) then some 0
    else (firstOccurrence pattern items).map (· + 1)

variable {pattern items front rest : List α}

theorem firstOccurrence_nil (notEmpty : pattern ≠ []) : firstOccurrence pattern [] = none :=
  if_neg notEmpty

theorem firstOccurrence_zero (isThere : pattern <+: items) :
    firstOccurrence pattern items = some 0 := by
  cases items with
  | nil => rw [firstOccurrence, if_pos (List.prefix_nil.mp isThere)]
  | cons item items => rw [firstOccurrence, if_pos (List.isPrefixOf_iff_prefix.mpr isThere)]

theorem firstOccurrence_cons {item : α} (notThere : ¬ pattern <+: item :: items) :
    firstOccurrence pattern (item :: items) = (firstOccurrence pattern items).map (· + 1) := by
  rw [firstOccurrence, if_neg fun isThere => notThere (List.isPrefixOf_iff_prefix.mp isThere)]

/-- An occurrence that is found has all of the pattern. -/
theorem length_le_of_found {place : Nat} (found : firstOccurrence pattern items = some place) :
    place + pattern.length ≤ items.length := by
  induction items generalizing place with
  | nil =>
    rw [firstOccurrence] at found
    split at found
    · rename_i isEmpty
      cases found
      rw [isEmpty]
      exact le_refl _
    · cases found
  | cons item items ih =>
    by_cases isThere : pattern <+: item :: items
    · rw [firstOccurrence_zero isThere] at found
      cases found
      rw [Nat.zero_add]
      exact isThere.length_le
    · rw [firstOccurrence_cons isThere] at found
      obtain ⟨before, isBefore, rfl⟩ := Option.map_eq_some_iff.mp found
      have := ih isBefore
      rw [List.length_cons]
      omega

/-- A list that is too short holds no pattern. -/
theorem firstOccurrence_short (short : items.length < pattern.length) :
    firstOccurrence pattern items = none := by
  cases found : firstOccurrence pattern items with
  | none => rfl
  | some place =>
    have := length_le_of_found found
    omega

/-- What is found in a front is found. -/
theorem firstOccurrence_append {place : Nat} (found : firstOccurrence pattern front = some place) :
    firstOccurrence pattern (front ++ rest) = some place := by
  induction front generalizing place with
  | nil =>
    have fits := length_le_of_found found
    rw [List.length_nil] at fits
    have isEmpty : pattern = [] := List.length_eq_zero_iff.mp (by omega)
    have isZero : place = 0 := by omega
    rw [isZero, isEmpty]
    exact firstOccurrence_zero List.nil_prefix
  | cons item front ih =>
    by_cases isThere : pattern <+: item :: front
    · rw [firstOccurrence_zero isThere] at found
      rw [← found]
      exact firstOccurrence_zero (isThere.trans (List.prefix_append _ _))
    · rw [firstOccurrence_cons isThere] at found
      obtain ⟨before, isBefore, rfl⟩ := Option.map_eq_some_iff.mp found
      have fits := length_le_of_found isBefore
      have notThere : ¬ pattern <+: item :: (front ++ rest) := by
        intro isLater
        refine isThere (List.prefix_of_prefix_length_le isLater
          (List.prefix_append (item :: front) rest) ?_)
        rw [List.length_cons]
        omega
      rw [List.cons_append, firstOccurrence_cons notThere, ih isBefore]
      rfl

/-- When a front holds none, the search goes on where the pattern does not fit into the front
any more. -/
theorem firstOccurrence_behind (notFound : firstOccurrence pattern front = none)
    {start : Nat} (isStart : start + pattern.length = front.length + 1) :
    firstOccurrence pattern (front ++ rest) =
      (firstOccurrence pattern ((front ++ rest).drop start)).map (· + start) := by
  induction start generalizing front with
  | zero =>
    rw [List.drop_zero]
    cases firstOccurrence pattern (front ++ rest) <;> rfl
  | succ start ih =>
    cases front with
    | nil =>
      rw [List.length_nil] at isStart
      have isEmpty : pattern = [] := List.length_eq_zero_iff.mp (by omega)
      rw [firstOccurrence, if_pos isEmpty] at notFound
      cases notFound
    | cons item front =>
      have notThere : ¬ pattern <+: item :: front := by
        intro isThere
        rw [firstOccurrence_zero isThere] at notFound
        cases notFound
      rw [firstOccurrence_cons notThere] at notFound
      have notFound' := Option.map_eq_none_iff.mp notFound
      have notLater : ¬ pattern <+: item :: (front ++ rest) := by
        intro isLater
        refine notThere (List.prefix_of_prefix_length_le isLater
          (List.prefix_append (item :: front) rest) ?_)
        omega
      rw [List.length_cons] at isStart
      rw [List.cons_append, firstOccurrence_cons notLater, ih notFound' (by omega),
        List.drop_succ_cons, Option.map_map]
      rfl

/-- A separator that the pattern does not have parts the search. -/
theorem firstOccurrence_separator (notEmpty : pattern ≠ []) {separator : α}
    (apart : separator ∉ pattern) :
    firstOccurrence pattern (front ++ separator :: rest) =
      (firstOccurrence pattern front).or
        ((firstOccurrence pattern rest).map (· + (front.length + 1))) := by
  induction front with
  | nil =>
    have notThere : ¬ pattern <+: separator :: rest := by
      rintro ⟨more, isList⟩
      obtain ⟨first, others, rfl⟩ := List.exists_cons_of_ne_nil notEmpty
      obtain ⟨rfl, -⟩ := List.cons.inj isList
      exact apart List.mem_cons_self
    rw [List.nil_append, firstOccurrence_cons notThere, firstOccurrence_nil notEmpty]
    rfl
  | cons item front ih =>
    by_cases isThere : pattern <+: item :: front
    · rw [firstOccurrence_zero isThere,
        firstOccurrence_zero (isThere.trans (List.prefix_append (item :: front) _))]
      rfl
    · have notLater : ¬ pattern <+: item :: (front ++ separator :: rest) := by
        intro isLater
        rcases List.prefix_or_prefix_of_prefix isLater
            (List.prefix_append (item :: front) (separator :: rest)) with within | ⟨more, isPattern⟩
        · exact isThere within
        · cases more with
          | nil => exact isThere (by rw [← isPattern, List.append_nil])
          | cons next more =>
            rw [← isPattern, ← List.cons_append, List.prefix_append_right_inj] at isLater
            obtain ⟨behind, isList⟩ := isLater
            obtain ⟨rfl, -⟩ := List.cons.inj isList
            exact apart (isPattern ▸ List.mem_append_right _ List.mem_cons_self)
      rw [List.cons_append, firstOccurrence_cons notLater, firstOccurrence_cons isThere, ih]
      cases firstOccurrence pattern front with
      | some place => rfl
      | none =>
        rw [Option.none_or, Option.map_none, Option.none_or, Option.map_map]
        congr 1

end Wisebot.Lib.Occurrence
