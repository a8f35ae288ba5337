import Mathlib.Data.List.Range
import Mathlib.Algebra.Ring.Nat

namespace Wisebot.Lib.Probing

/-! Bucketed open addressing. A table has `rows` buckets of `cols` places; a
place holds a key, 0 when it is free. A key is looked for along a path of rows
and the search stops at the first place that is free or holds the key. -/

inductive Stop where
  | place (row col : Nat)
  | exhausted
  | outside
  deriving DecidableEq

section

variable {Key : Type} [DecidableEq Key] (free : Key)

def Stops (table : Nat → Key) (key : Key) (col : Nat) : Prop :=
  table col = free ∨ table col = key

instance (table : Nat → Key) (key : Key) (col : Nat) :
    Decidable (Stops free table key col) :=
  inferInstanceAs (Decidable (_ ∨ _))

def stopInRow (cols : Nat) (table : Nat → Key) (key : Key) : Option Nat :=
  (List.range cols).find? fun col => Stops free table key col

def walk (rows cols : Nat) (table : Nat → Nat → Key) (key : Key) : List Nat → Stop
  | [] => .exhausted
  | row :: path =>
    if row < rows then
      match stopInRow free cols (table row) key with
      | some col => .place row col
      | none => walk rows cols table key path
    else .outside

variable {free} {rows cols : Nat} {table other : Nat → Nat → Key} {key : Key}

theorem stopInRow_eq_some {line : Nat → Key} {col : Nat} :
    stopInRow free cols line key = some col ↔
      Stops free line key col ∧ col < cols ∧
        ∀ before < col, ¬ Stops free line key before := by
  simp [stopInRow, List.find?_range_eq_some]

theorem stopInRow_eq_none {line : Nat → Key} :
    stopInRow free cols line key = none ↔ ∀ col < cols, ¬ Stops free line key col := by
  simp [stopInRow]

/-- A search ends at a free place or at its key. -/
theorem walk_eq_place {path : List Nat} {row col : Nat}
    (found : walk free rows cols table key path = .place row col) :
    row < rows ∧ stopInRow free cols (table row) key = some col := by
  induction path with
  | nil => cases found
  | cons next path induction =>
    rw [walk] at found
    split at found
    case isFalse => cases found
    case isTrue inside =>
      cases stopped : stopInRow free cols (table next) key with
      | none =>
        rw [stopped] at found
        exact induction found
      | some place =>
        rw [stopped] at found
        cases found
        exact ⟨inside, stopped⟩

/-- Changing one place at which the search would have stopped does not move
the place at which it does stop, as long as that place still stops it. -/
theorem walk_update {path : List Nat} {row col changedRow changedCol : Nat}
    (found : walk free rows cols table key path = .place row col)
    (same : ∀ r < rows, ∀ c < cols, ¬ (r = changedRow ∧ c = changedCol) →
      other r c = table r c)
    (stopped : Stops free (table changedRow) key changedCol)
    (stillStops : Stops free (other row) key col) :
    walk free rows cols other key path = .place row col := by
  induction path with
  | nil => cases found
  | cons next path induction =>
    rw [walk] at found
    split at found
    case isFalse => cases found
    case isTrue inside =>
      cases here : stopInRow free cols (table next) key with
      | none =>
        rw [here] at found
        have unchanged : stopInRow free cols (other next) key = none := by
          rw [stopInRow_eq_none] at here ⊢
          intro c bound
          have elsewhere : ¬ (next = changedRow ∧ c = changedCol) := by
            rintro ⟨rfl, rfl⟩
            exact here c bound stopped
          have agrees := same next inside c bound elsewhere
          intro stops
          apply here c bound
          rwa [Stops, agrees] at stops
        rw [walk, if_pos inside, unchanged]
        exact induction found
      | some place =>
        rw [here] at found
        obtain ⟨rfl, rfl⟩ := Stop.place.inj found
        rw [walk, if_pos inside]
        suffices stopInRow free cols (other next) key = some place by rw [this]
        rw [stopInRow_eq_some] at here ⊢
        obtain ⟨_, bound, first⟩ := here
        refine ⟨stillStops, bound, ?_⟩
        intro before earlier stops
        have elsewhere : ¬ (next = changedRow ∧ before = changedCol) := by
          rintro ⟨rfl, rfl⟩
          exact first before earlier stopped
        apply first before earlier
        rwa [Stops, same next inside before (earlier.trans bound) elsewhere] at stops

/-- Only the keys matter. -/
theorem walk_congr {path : List Nat}
    (same : ∀ row < rows, ∀ col < cols, other row col = table row col) :
    walk free rows cols other key path = walk free rows cols table key path := by
  induction path with
  | nil => rfl
  | cons next path induction =>
    simp only [walk, induction]
    split
    case isFalse => rfl
    case isTrue inside =>
      have row : stopInRow free cols (other next) key =
          stopInRow free cols (table next) key := by
        rw [stopInRow, stopInRow, ← List.head?_filter, ← List.head?_filter]
        congr 1
        apply List.filter_congr
        intro col member
        rw [decide_eq_decide]
        simp only [Stops, same next inside col (List.mem_range.mp member)]
      rw [row]

/-- A path of rows of the table does not leave it. -/
theorem walk_ne_outside {path : List Nat} (inside : ∀ row ∈ path, row < rows) :
    walk free rows cols table key path ≠ .outside := by
  induction path with
  | nil => simp [walk]
  | cons next path induction =>
    rw [walk, if_pos (inside next List.mem_cons_self)]
    split
    · simp
    · exact induction fun row member => inside row (List.mem_cons_of_mem _ member)

/-- Every stored key is found where it stands, and the free places of a row
are behind the used ones. -/
structure WellPlaced (free : Key) (rows cols : Nat) (path : Key → List Nat)
    (table : Nat → Nat → Key) : Prop where
  found : ∀ row < rows, ∀ col < cols, table row col ≠ free →
    walk free rows cols table (table row col) (path (table row col)) = .place row col
  packed : ∀ row < rows, ∀ col, ∀ later < cols, col ≤ later →
    table row col = free → table row later = free

namespace WellPlaced

variable {path : Key → List Nat}

theorem unique (placed : WellPlaced free rows cols path table)
    {row col row' col' : Nat} (inRows : row < rows) (inCols : col < cols)
    (inRows' : row' < rows) (inCols' : col' < cols)
    (stored : table row col ≠ free) (same : table row' col' = table row col) :
    row' = row ∧ col' = col := by
  have first := placed.found row inRows col inCols stored
  have second := placed.found row' inRows' col' inCols' (same ▸ stored)
  rw [same, first] at second
  cases second
  exact ⟨rfl, rfl⟩

theorem empty : WellPlaced free rows cols path fun _ _ => free :=
  ⟨fun _ _ _ _ stored => absurd rfl stored, fun _ _ _ _ _ _ _ => rfl⟩

theorem congr (placed : WellPlaced free rows cols path table)
    (same : ∀ row < rows, ∀ col < cols, other row col = table row col) :
    WellPlaced free rows cols path other where
  found row inRows col inCols stored := by
    rw [same row inRows col inCols] at stored ⊢
    rw [walk_congr same]
    exact placed.found row inRows col inCols stored
  packed row inRows col later inCols order isFree := by
    rw [same row inRows later inCols]
    rw [same row inRows col (order.trans_lt inCols)] at isFree
    exact placed.packed row inRows col later inCols order isFree

/-- A new key goes to the free place its search ends at. -/
theorem insert (placed : WellPlaced free rows cols path table)
    {row col : Nat} (search : walk free rows cols table key (path key) = .place row col)
    (isFree : table row col = free) (stored : key ≠ free)
    (same : ∀ r < rows, ∀ c < cols, ¬ (r = row ∧ c = col) → other r c = table r c)
    (set : other row col = key) :
    WellPlaced free rows cols path other where
  found r inRows c inCols occupied := by
    by_cases here : r = row ∧ c = col
    · obtain ⟨rfl, rfl⟩ := here
      rw [set]
      exact walk_update search same (.inl isFree) (.inr set)
    · have old := same r inRows c inCols here
      rw [old] at occupied ⊢
      exact walk_update (placed.found r inRows c inCols occupied) same
        (.inl isFree) (.inr old)
  packed r inRows c later inCols order freed := by
    obtain ⟨_, stop⟩ := walk_eq_place search
    obtain ⟨_, _, first⟩ := stopInRow_eq_some.mp stop
    have elsewhere : ¬ (r = row ∧ c = col) := by
      rintro ⟨rfl, rfl⟩
      exact stored (set.symm.trans freed)
    rw [same r inRows c (order.trans_lt inCols) elsewhere] at freed
    have laterFree := placed.packed r inRows c later inCols order freed
    by_cases here : r = row ∧ later = col
    · obtain ⟨rfl, rfl⟩ := here
      have before : c < later := by
        refine lt_of_le_of_ne order ?_
        rintro rfl
        exact elsewhere ⟨rfl, rfl⟩
      exact absurd (.inl freed) (first c before)
    · rwa [same r inRows later inCols here]

end WellPlaced

end

end Wisebot.Lib.Probing
