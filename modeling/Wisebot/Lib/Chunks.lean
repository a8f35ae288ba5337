import Mathlib.Algebra.Ring.Nat
import Mathlib.Data.List.Basic

namespace Wisebot.Lib.Chunks

/-! Sequences that were appended in chunks and are read backwards: the chunks
stand newest first, a read leaves out the newest items and takes some before
them, from a limited number of chunks. -/

variable {α : Type}

/-- The items in the order in which they were appended. -/
def joined (chunks : List (List α)) : List α := chunks.reverse.flatten

/-- The `count` items before the newest `skip`. -/
def newestSlice (items : List α) (skip count : Nat) : List α :=
  (items.drop (items.length - skip - count)).take count

/-- The parts of the chunks that a backward read takes, at most `room` of them. -/
def pieces : List (List α) → (skip count room : Nat) → List (List α)
  | [], _, _, _ => []
  | chunk :: older, skip, count, room =>
    if count = 0 ∨ room = 0 then []
    else if chunk.length ≤ skip then pieces older (skip - chunk.length) count room
    else
      newestSlice chunk skip (min count (chunk.length - skip)) ::
        pieces older 0 (count - (chunk.length - skip)) (room - 1)

/-- How many items behind the skipped ones `room` chunks have. -/
def reach : List (List α) → (skip room : Nat) → Nat
  | [], _, _ => 0
  | chunk :: older, skip, room =>
    if room = 0 then 0
    else if chunk.length ≤ skip then reach older (skip - chunk.length) room
    else chunk.length - skip + reach older 0 (room - 1)

/-- How many chunks have one of the wanted items. -/
def needed : List (List α) → (skip count : Nat) → Nat
  | [], _, _ => 0
  | chunk :: older, skip, count =>
    if count = 0 then 0
    else if chunk.length ≤ skip then needed older (skip - chunk.length) count
    else 1 + needed older 0 (count - (chunk.length - skip))

@[simp] theorem joined_nil : joined ([] : List (List α)) = [] := rfl

@[simp] theorem joined_cons (chunk : List α) (older : List (List α)) :
    joined (chunk :: older) = joined older ++ chunk := by
  simp [joined]

@[simp] theorem newestSlice_zero (items : List α) (skip : Nat) : newestSlice items skip 0 = [] := by
  simp [newestSlice]

theorem length_newestSlice {items : List α} {skip count : Nat}
    (fits : skip + count ≤ items.length) : (newestSlice items skip count).length = count := by
  simp only [newestSlice, List.length_take, List.length_drop]
  omega

/-- The newest chunk is skipped. -/
theorem newestSlice_append_skipped {older chunk : List α} {skip count : Nat}
    (skipped : chunk.length ≤ skip) (fits : skip + count ≤ (older ++ chunk).length) :
    newestSlice (older ++ chunk) skip count = newestSlice older (skip - chunk.length) count := by
  rw [List.length_append] at fits
  have start : (older ++ chunk).length - skip - count =
      older.length - (skip - chunk.length) - count := by
    rw [List.length_append]
    omega
  rw [newestSlice, newestSlice, start, List.drop_append_of_le_length (by omega),
    List.take_append_of_le_length (by rw [List.length_drop]; omega)]

/-- The slice ends in the newest chunk. -/
theorem newestSlice_append_cut {older chunk : List α} {skip count : Nat}
    (cut : skip < chunk.length) (fits : skip + count ≤ (older ++ chunk).length) :
    newestSlice (older ++ chunk) skip count =
      newestSlice older 0 (count - (chunk.length - skip)) ++
        newestSlice chunk skip (min count (chunk.length - skip)) := by
  rw [List.length_append] at fits
  by_cases inside : count ≤ chunk.length - skip
  · have start : (older ++ chunk).length - skip - count =
        older.length + (chunk.length - skip - count) := by
      rw [List.length_append]
      omega
    rw [Nat.sub_eq_zero_of_le inside, newestSlice_zero, List.nil_append, Nat.min_eq_left inside,
      newestSlice, newestSlice, start, List.drop_append, Nat.add_sub_cancel_left,
      List.drop_eq_nil_of_le (by omega), List.nil_append]
  · have start : (older ++ chunk).length - skip - count =
        older.length - 0 - (count - (chunk.length - skip)) := by
      rw [List.length_append]
      omega
    have whole : chunk.length - skip - (chunk.length - skip) = 0 := Nat.sub_self _
    rw [Nat.min_eq_right (Nat.le_of_not_le inside), newestSlice, newestSlice, newestSlice, start,
      whole, List.drop_zero, List.drop_append_of_le_length (by omega), List.take_append]
    congr 1
    · rw [List.take_of_length_le (by rw [List.length_drop]; omega),
        List.take_of_length_le (by rw [List.length_drop]; omega)]
    · congr 1
      rw [List.length_drop]
      omega

/-- The parts together are the slice, as far as the chunks reach. -/
theorem joined_pieces (chunks : List (List α)) {skip count : Nat} (room : Nat)
    (fits : skip + count ≤ (joined chunks).length) :
    joined (pieces chunks skip count room) =
      newestSlice (joined chunks) skip (min count (reach chunks skip room)) := by
  induction chunks generalizing skip count room with
  | nil => simp [pieces, reach]
  | cons chunk older induction =>
    rw [joined_cons] at fits
    have lengths : (joined older ++ chunk).length = (joined older).length + chunk.length :=
      List.length_append
    rw [pieces, reach]
    by_cases stops : count = 0 ∨ room = 0
    · rw [if_pos stops]
      rcases stops with rfl | rfl <;> simp
    · rw [if_neg stops, if_neg (not_or.mp stops).2]
      by_cases skipped : chunk.length ≤ skip
      · rw [if_pos skipped, if_pos skipped, joined_cons,
          newestSlice_append_skipped skipped (by omega), induction room (by omega)]
      · rw [if_neg skipped, if_neg skipped, joined_cons, joined_cons,
          newestSlice_append_cut (Nat.lt_of_not_le skipped) (by omega),
          induction (room - 1) (by omega)]
        congr 2 <;> omega

theorem needed_zero (chunks : List (List α)) (skip : Nat) : needed chunks skip 0 = 0 := by
  cases chunks <;> simp [needed]

theorem needed_le_iff (chunks : List (List α)) {skip count : Nat} (room : Nat)
    (fits : skip + count ≤ (joined chunks).length) :
    needed chunks skip count ≤ room ↔ count ≤ reach chunks skip room := by
  induction chunks generalizing skip count room with
  | nil =>
    have empty : skip + count ≤ 0 := fits
    simp only [needed, reach]
    omega
  | cons chunk older induction =>
    rw [joined_cons, List.length_append] at fits
    rw [needed, reach]
    by_cases nothing : count = 0
    · simp [nothing]
    · rw [if_neg nothing]
      by_cases skipped : chunk.length ≤ skip
      · rw [if_pos skipped, if_pos skipped]
        by_cases full : room = 0
        · rw [if_pos full, full, induction 0 (by omega)]
          have none : ∀ (chunks : List (List α)) (skip : Nat), reach chunks skip 0 = 0 := by
            intro chunks skip
            cases chunks <;> simp [reach]
          rw [none]
        · rw [if_neg full, induction room (by omega)]
      · rw [if_neg skipped, if_neg skipped]
        by_cases full : room = 0
        · rw [if_pos full]
          omega
        · rw [if_neg full]
          have rest : needed older 0 (count - (chunk.length - skip)) ≤ room - 1 ↔
              count - (chunk.length - skip) ≤ reach older 0 (room - 1) :=
            induction (room - 1) (by omega)
          omega

theorem length_pieces_le (chunks : List (List α)) (skip count room : Nat) :
    (pieces chunks skip count room).length ≤ room := by
  induction chunks generalizing skip count room with
  | nil => exact Nat.zero_le _
  | cons chunk older induction =>
    rw [pieces]
    split
    · exact Nat.zero_le _
    · split
      · exact induction _ _ _
      · have rest := induction 0 (count - (chunk.length - skip)) (room - 1)
        rw [List.length_cons]
        omega

theorem reach_le {chunks : List (List α)} {bound : Nat}
    (small : ∀ chunk ∈ chunks, chunk.length ≤ bound) (skip room : Nat) :
    reach chunks skip room ≤ room * bound := by
  induction chunks generalizing skip room with
  | nil => exact Nat.zero_le _
  | cons chunk older induction =>
    obtain ⟨first, rest⟩ := List.forall_mem_cons.mp small
    rw [reach]
    split
    · exact Nat.zero_le _
    · split
      · exact induction rest _ _
      · obtain ⟨room, rfl⟩ : ∃ less, room = less + 1 := ⟨room - 1, by omega⟩
        have older := induction rest 0 room
        rw [Nat.add_sub_cancel, Nat.add_mul]
        omega

/-- The limit does not reach behind the last chunk. -/
theorem reach_add_le (chunks : List (List α)) {skip : Nat} (room : Nat)
    (fits : skip ≤ (joined chunks).length) : skip + reach chunks skip room ≤ (joined chunks).length := by
  induction chunks generalizing skip room with
  | nil => simpa [reach] using fits
  | cons chunk older induction =>
    rw [joined_cons, List.length_append] at fits ⊢
    rw [reach]
    split
    · omega
    · split
      · have rest : skip - chunk.length + reach older (skip - chunk.length) room ≤
            (joined older).length := induction room (by omega)
        omega
      · have rest : 0 + reach older 0 (room - 1) ≤ (joined older).length :=
          induction (room - 1) (Nat.zero_le _)
        omega

end Wisebot.Lib.Chunks
