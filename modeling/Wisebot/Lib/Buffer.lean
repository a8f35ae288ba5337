import Mathlib.Data.List.Range
import Mathlib.Algebra.Ring.Nat

namespace Wisebot.Lib

/-! Arrays that are reused without being cleared: the entries in use are a
prefix, whatever stands behind it. -/

abbrev Buffer (α : Type) := Nat → α

namespace Buffer

variable {α : Type}

def write (buffer : Buffer α) (start : Nat) (items : List α) : Buffer α :=
  fun index => if start ≤ index then (items[index - start]?).getD (buffer index) else buffer index

/-- The first entries. -/
def take (buffer : Buffer α) (count : Nat) : List α :=
  (List.range count).map buffer

variable {buffer other : Buffer α} {start count index : Nat} {items : List α}

@[simp] theorem length_take : (buffer.take count).length = count := by
  simp [take]

@[simp] theorem take_zero : buffer.take 0 = [] := rfl

theorem take_succ : buffer.take (count + 1) = buffer.take count ++ [buffer count] := by
  simp [take, List.range_succ]

theorem take_congr (same : ∀ index < count, other index = buffer index) :
    other.take count = buffer.take count := by
  apply List.map_congr_left
  intro index member
  exact same index (List.mem_range.mp member)

theorem write_outside (outside : index < start ∨ start + items.length ≤ index) :
    buffer.write start items index = buffer index := by
  unfold write
  split
  case isFalse => rfl
  case isTrue within =>
    rw [List.getElem?_eq_none (by omega)]
    rfl

theorem take_write (buffer : Buffer α) (start : Nat) (items : List α) :
    (buffer.write start items).take (start + items.length) = buffer.take start ++ items := by
  apply List.ext_getElem
  · simp
  · intro index bound _
    rw [length_take] at bound
    simp only [take, List.getElem_map, List.getElem_range]
    by_cases below : index < start
    · rw [List.getElem_append_left (by simpa using below), write_outside (.inl below)]
      simp
    · have inItems : index - start < items.length := by omega
      rw [List.getElem_append_right (by simp; omega)]
      simp [write, Nat.le_of_not_lt below, List.getElem?_eq_getElem inItems]

theorem take_update (buffer : Buffer α) (count : Nat) (item : α) :
    take (Function.update buffer count item) (count + 1) = buffer.take count ++ [item] := by
  rw [take_succ, Function.update_self]
  congr 1
  apply take_congr
  intro index bound
  exact Function.update_of_ne (Nat.ne_of_lt bound) _ _

/-- The entries from a place on. -/
def slice (buffer : Buffer α) (start count : Nat) : List α :=
  take (fun index => buffer (start + index)) count

theorem slice_write (buffer : Buffer α) (start : Nat) (items : List α) :
    (buffer.write start items).slice start items.length = items := by
  have shifted : (fun index => buffer.write start items (start + index)) =
      write (fun index => buffer (start + index)) 0 items := by
    funext index
    simp [write]
  have taken := take_write (fun index => buffer (start + index)) 0 items
  rw [Nat.zero_add, take_zero, List.nil_append] at taken
  rw [slice, shifted, taken]

theorem slice_write_below {other : Nat} (below : start + count ≤ other) :
    (buffer.write other items).slice start count = buffer.slice start count :=
  take_congr fun index bound => write_outside (.inl (by omega))

theorem slice_add (buffer : Buffer α) (start first second : Nat) :
    buffer.slice start (first + second) =
      buffer.slice start first ++ buffer.slice (start + first) second := by
  simp only [slice, take, List.range_add, List.map_append, List.map_map]
  simp [Function.comp_def, Nat.add_assoc]

end Buffer

end Wisebot.Lib
