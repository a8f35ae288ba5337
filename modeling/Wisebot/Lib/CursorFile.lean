import Mathlib.Data.List.Basic
import Mathlib.Algebra.Ring.Nat

namespace Wisebot.Lib

/-! A sequence with a cursor: reading from the cursor on, and writing over what stands
there. A cursor behind the end leaves a gap whose items the next write may choose. -/

structure CursorFile (α : Type) where
  contents : List α
  cursor : Nat

namespace CursorFile

variable {α : Type} {before middle after : CursorFile α} {items more : List α}

/-- At most `size` items from the cursor on. -/
def ahead (file : CursorFile α) (size : Nat) : List α :=
  (file.contents.drop file.cursor).take size

theorem ahead_add (file : CursorFile α) (first second : Nat) :
    file.ahead (first + second) =
      file.ahead first ++ ahead ⟨file.contents, file.cursor + first⟩ second := by
  rw [ahead, ahead, ahead, List.take_add, List.drop_drop]

/-- Where fewer items are ahead than are asked for, asking for more gives no more. -/
theorem ahead_of_short {file : CursorFile α} {size : Nat} (short : (file.ahead size).length < size)
    (rest : Nat) : file.ahead (size + rest) = file.ahead size := by
  rw [ahead, List.length_take] at short
  rw [ahead, ahead, List.take_of_length_le (by omega), List.take_of_length_le (by omega)]

theorem length_ahead_le (file : CursorFile α) (size : Nat) : (file.ahead size).length ≤ size :=
  List.length_take_le _ _

/-- `items` were written over what stands at the cursor, or behind the end. -/
structure Overwritten (before : CursorFile α) (items : List α) (after : CursorFile α) :
    Prop where
  cursor_eq : after.cursor = before.cursor + items.length
  length_eq : after.contents.length =
    max before.contents.length (before.cursor + items.length)
  written : ∀ index < items.length,
    after.contents[before.cursor + index]? = items[index]?
  kept : ∀ index < before.contents.length,
    index < before.cursor ∨ before.cursor + items.length ≤ index →
    after.contents[index]? = before.contents[index]?

/-- Writing nothing changes nothing, also where the cursor is behind the end. -/
def Appended (before : CursorFile α) (items : List α) (after : CursorFile α) : Prop :=
  items = [] ∧ after = before ∨ items ≠ [] ∧ Overwritten before items after

theorem Overwritten.trans (first : Overwritten before items middle)
    (second : Overwritten middle more after) : Overwritten before (items ++ more) after := by
  have start := first.cursor_eq
  refine ⟨?_, ?_, ?_, ?_⟩
  · rw [second.cursor_eq, start, List.length_append, Nat.add_assoc]
  · rw [second.length_eq, first.length_eq, start, List.length_append]
    omega
  · intro index bound
    rw [List.length_append] at bound
    by_cases early : index < items.length
    · have inside : before.cursor + index < middle.contents.length := by
        rw [first.length_eq]
        omega
      rw [second.kept _ inside (.inl (by omega)), first.written index early,
        List.getElem?_append_left early]
    · obtain ⟨rest, rfl⟩ := Nat.exists_eq_add_of_le (Nat.le_of_not_lt early)
      have late := second.written rest (by omega)
      rw [start, Nat.add_assoc] at late
      rw [late, List.getElem?_append_right (by omega), Nat.add_sub_cancel_left]
  · intro index bound outside
    rw [List.length_append] at outside
    have inside : index < middle.contents.length := by
      rw [first.length_eq]
      omega
    rw [second.kept index inside (by omega), first.kept index bound (by omega)]

theorem Appended.trans (first : Appended before items middle)
    (second : Appended middle more after) : Appended before (items ++ more) after := by
  rcases first with ⟨rfl, rfl⟩ | ⟨nonempty, first⟩
  · exact second
  · rcases second with ⟨rfl, rfl⟩ | ⟨_, second⟩
    · rw [List.append_nil]
      exact .inr ⟨nonempty, first⟩
    · refine .inr ⟨?_, first.trans second⟩
      intro empty
      exact nonempty (List.append_eq_nil_iff.mp empty).1

end CursorFile

end Wisebot.Lib
