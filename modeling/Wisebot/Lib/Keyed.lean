import Mathlib.Data.List.Nodup
import Mathlib.Algebra.Ring.Nat

namespace Wisebot.Lib.Keyed

/-! Lists that stand for a map: the first item with a key is the value of the key. -/

section Keyed

variable {α κ : Type} [DecidableEq κ] (key : α → κ)

/-- The first item with this key. -/
def found (items : List α) (wanted : κ) : Option α :=
  items.find? fun item => key item = wanted

/-- The item in the place of the first with its key, or behind all. -/
def put (item : α) : List α → List α
  | [] => [item]
  | head :: rest => if key head = key item then item :: rest else head :: put item rest

/-- Without the first item with this key. -/
def removed (items : List α) (unwanted : κ) : List α :=
  items.eraseP fun item => key item = unwanted

/-- At most one item for each key. -/
def Distinct (items : List α) : Prop := (items.map key).Nodup

variable {key} {items rest : List α} {item head : α} {wanted : κ}

@[simp] theorem found_nil : found key [] wanted = none := rfl

theorem found_cons_same (same : key head = wanted) :
    found key (head :: rest) wanted = some head := by
  simp [found, same]

theorem found_cons_other (other : key head ≠ wanted) :
    found key (head :: rest) wanted = found key rest wanted := by
  simp [found, other]

theorem key_of_found (isFound : found key items wanted = some item) : key item = wanted := by
  simpa using List.find?_some isFound

theorem found_eq_none_iff : found key items wanted = none ↔ wanted ∉ items.map key := by
  simp [found, List.find?_eq_none]

theorem found_put (item : α) (items : List α) (wanted : κ) :
    found key (put key item items) wanted =
      if key item = wanted then some item else found key items wanted := by
  induction items with
  | nil => by_cases same : key item = wanted <;> simp [put, found, same]
  | cons head rest induction =>
    rw [put]
    by_cases here : key head = key item
    · rw [if_pos here]
      by_cases same : key item = wanted
      · rw [found_cons_same same, if_pos same]
      · rw [found_cons_other same, if_neg same, found_cons_other (here ▸ same)]
    · rw [if_neg here]
      by_cases same : key head = wanted
      · rw [found_cons_same same, found_cons_same same,
          if_neg fun isItem => here (same.trans isItem.symm)]
      · rw [found_cons_other same, found_cons_other same, induction]

theorem keys_put (item : α) (items : List α) :
    (put key item items).map key =
      if key item ∈ items.map key then items.map key else items.map key ++ [key item] := by
  induction items with
  | nil => rfl
  | cons head rest induction =>
    rw [put]
    by_cases here : key head = key item
    · rw [if_pos here, if_pos (by simp [here])]
      simp [here]
    · rw [if_neg here, List.map_cons, induction, List.map_cons]
      by_cases later : key item ∈ rest.map key
      · rw [if_pos later, if_pos (List.mem_cons_of_mem _ later)]
      · have new : key item ∉ key head :: rest.map key := by
          simp only [List.mem_cons, not_or]
          exact ⟨fun same => here same.symm, later⟩
        rw [if_neg later, if_neg new]
        rfl

theorem Distinct.put (distinct : Distinct key items) (item : α) :
    Distinct key (put key item items) := by
  rw [Distinct, keys_put]
  split
  case isTrue => exact distinct
  case isFalse new =>
    rw [List.nodup_append]
    refine ⟨distinct, List.nodup_singleton _, ?_⟩
    intro first isFirst second isSecond same
    rw [List.mem_singleton.mp isSecond] at same
    exact new (same ▸ isFirst)

theorem Distinct.removed (distinct : Distinct key items) (unwanted : κ) :
    Distinct key (removed key items unwanted) :=
  List.Nodup.sublist ((List.eraseP_sublist).map key) distinct

theorem found_removed (distinct : Distinct key items) (unwanted wanted : κ) :
    found key (removed key items unwanted) wanted =
      if unwanted = wanted then none else found key items wanted := by
  induction items with
  | nil => simp [removed]
  | cons head rest induction =>
    obtain ⟨notLater, restDistinct⟩ := List.nodup_cons.mp distinct
    by_cases here : key head = unwanted
    · rw [removed, List.eraseP_cons_of_pos (by simpa using here)]
      by_cases same : unwanted = wanted
      · rw [if_pos same, found_eq_none_iff, ← same, ← here]
        exact notLater
      · rw [if_neg same, found_cons_other (here ▸ same)]
    · rw [removed, List.eraseP_cons_of_neg (by simpa using here)]
      by_cases same : key head = wanted
      · rw [found_cons_same same, found_cons_same same,
          if_neg fun isWanted => here (same.trans isWanted.symm)]
      · rw [found_cons_other same, found_cons_other same]
        exact induction restDistinct

end Keyed

end Wisebot.Lib.Keyed
