import Mathlib.Algebra.Order.Ring.Nat
import Mathlib.Data.List.Basic
import Mathlib.Data.List.Infix

namespace Wisebot.Lib.Fitting

variable {α : Type} (size : α → Nat)

/-! The longest front of a list whose items together come to no more than some size. -/

def totalSize (items : List α) : Nat := (items.map size).sum

@[simp] theorem totalSize_nil : totalSize size [] = 0 := rfl

@[simp] theorem totalSize_cons (item : α) (items : List α) :
    totalSize size (item :: items) = size item + totalSize size items := List.sum_cons

@[simp] theorem totalSize_append (front rest : List α) :
    totalSize size (front ++ rest) = totalSize size front + totalSize size rest := by
  rw [totalSize, List.map_append, List.sum_append]
  rfl

/-- A front that has room, and of which every front that has room is a front. -/
structure LongestFront (room : Nat) (items front : List α) : Prop where
  isFront : front <+: items
  fits : totalSize size front ≤ room
  longest : ∀ other, other <+: items → totalSize size other ≤ room → other <+: front

variable {size} {room : Nat} {items front rest other : List α}

/-- A front is the longest one exactly when what comes next has no room any more. -/
theorem longestFront_append_iff :
    LongestFront size room (front ++ rest) front ↔
      totalSize size front ≤ room ∧
        ∀ next ∈ rest.head?, room < totalSize size front + size next := by
  constructor
  · intro isLongest
    refine ⟨isLongest.fits, fun next isNext => ?_⟩
    obtain ⟨more, rfl⟩ := List.head?_eq_some_iff.mp isNext
    by_contra hasRoom
    have longer : front ++ [next] <+: front := by
      apply isLongest.longest
      · exact ⟨more, List.append_assoc ..⟩
      · rw [totalSize_append, totalSize_cons, totalSize_nil]
        omega
    have length := longer.length_le
    rw [List.length_append, List.length_singleton] at length
    omega
  · rintro ⟨fits, full⟩
    refine ⟨List.prefix_append .., fits, fun other isFront hasRoom => ?_⟩
    rcases List.prefix_or_prefix_of_prefix isFront (List.prefix_append front rest) with
      within | ⟨more, rfl⟩
    · exact within
    · rw [List.prefix_append_right_inj] at isFront
      cases more with
      | nil => rw [List.append_nil]
      | cons next more =>
        obtain ⟨behind, rfl⟩ := isFront
        have tooLong := full next rfl
        rw [totalSize_append, totalSize_cons] at hasRoom
        omega

theorem LongestFront.of_split (isItems : items = front ++ rest)
    (fits : totalSize size front ≤ room)
    (full : ∀ next ∈ rest.head?, room < totalSize size front + size next) :
    LongestFront size room items front :=
  isItems ▸ longestFront_append_iff.mpr ⟨fits, full⟩

theorem longestFront_cons_iff {item : α} (hasRoom : size item ≤ room) :
    LongestFront size room (item :: items) (item :: front) ↔
      LongestFront size (room - size item) items front := by
  constructor
  · intro isLongest
    obtain ⟨rest, isItems⟩ := isLongest.isFront
    obtain ⟨-, rfl⟩ := List.cons.inj isItems
    obtain ⟨fits, full⟩ := longestFront_append_iff.mp
      (show LongestFront size room (item :: front ++ rest) (item :: front) from isLongest)
    rw [totalSize_cons] at fits full
    exact longestFront_append_iff.mpr
      ⟨by omega, fun next isNext => by have := full next isNext; omega⟩
  · intro isLongest
    obtain ⟨rest, rfl⟩ := isLongest.isFront
    obtain ⟨fits, full⟩ := longestFront_append_iff.mp isLongest
    refine LongestFront.of_split (List.cons_append ..).symm ?_ fun next isNext => ?_
    · rw [totalSize_cons]
      omega
    · have := full next isNext
      rw [totalSize_cons]
      omega

/-- An item that does not fit stands behind the longest front. -/
theorem exists_longestFront (short : room < totalSize size items) :
    ∃ front next rest, items = front ++ next :: rest ∧ LongestFront size room items front := by
  induction items generalizing room with
  | nil => exact absurd short (Nat.not_lt_zero _)
  | cons item items ih =>
    by_cases hasRoom : size item ≤ room
    · rw [totalSize_cons] at short
      obtain ⟨front, next, rest, isItems, isLongest⟩ := @ih (room - size item) (by omega)
      exact ⟨item :: front, next, rest, by rw [isItems]; rfl,
        (longestFront_cons_iff hasRoom).mpr isLongest⟩
    · refine ⟨[], item, items, rfl,
        LongestFront.of_split (List.nil_append _).symm (Nat.zero_le _) ?_⟩
      rintro next ⟨⟩
      rw [totalSize_nil]
      omega

theorem longestFront_self (fits : totalSize size items ≤ room) :
    LongestFront size room items items :=
  .of_split (List.append_nil items).symm fits fun next never => by cases never

/-- The items that are taken when each one is taken if there is room for another one like the
one before it. -/
def frontByLast (size : α → Nat) : (room last : Nat) → List α → List α
  | _, _, [] => []
  | room, last, item :: items =>
    if last ≤ room then item :: frontByLast size (room - size item) (size item) items else []

theorem frontByLast_front (room last : Nat) (items : List α) :
    frontByLast size room last items <+: items := by
  induction items generalizing room last with
  | nil => exact List.nil_prefix
  | cons item items ih =>
    rw [frontByLast]
    split
    · exact List.prefix_cons_inj _ |>.mpr (ih _ _)
    · exact List.nil_prefix

/-- The size of the last item of a front; of the empty one, that of what came before. -/
def lastSize (size : α → Nat) (last : Nat) (front : List α) : Nat :=
  (front.getLast?.map size).getD last

@[simp] theorem lastSize_nil (last : Nat) : lastSize size last [] = last := rfl

@[simp] theorem lastSize_cons (last : Nat) (item : α) (front : List α) :
    lastSize size last (item :: front) = lastSize size (size item) front := by
  cases front with
  | nil => rfl
  | cons next front => rw [lastSize, lastSize, List.getLast?_cons_cons, List.getLast?_cons]; rfl

/-- With items of one and of two, this is the longest front exactly when an item with
room for one more before it is like the one before it. -/
theorem longestFront_frontByLast_iff (sizes : ∀ item ∈ items, 1 ≤ size item ∧ size item ≤ 2)
    {last : Nat} (isLast : 1 ≤ last ∧ last ≤ 2) :
    LongestFront size room items (frontByLast size room last items) ↔
      ∀ front next rest, items = front ++ next :: rest → totalSize size front + 1 = room →
        size next = lastSize size last front := by
  induction items generalizing room last with
  | nil =>
    refine iff_of_true (longestFront_self (Nat.zero_le _)) ?_
    intro front next rest isItems
    cases front <;> cases isItems
  | cons item items ih =>
    have isSize := sizes item List.mem_cons_self
    have others := fun other within => sizes other (List.mem_cons_of_mem item within)
    rw [frontByLast]
    split
    case isTrue hasRoom =>
      by_cases fits : size item ≤ room
      · rw [longestFront_cons_iff fits, ih others isSize]
        constructor
        · intro agrees front next rest isItems isRoom
          cases front with
          | nil =>
            obtain ⟨rfl, rfl⟩ := List.cons.inj isItems
            rw [totalSize_nil] at isRoom
            rw [lastSize_nil]
            omega
          | cons first front =>
            obtain ⟨rfl, isRest⟩ := List.cons.inj isItems
            rw [totalSize_cons] at isRoom
            rw [lastSize_cons]
            exact agrees front next rest isRest (by omega)
        · intro agrees front next rest isItems isRoom
          have agreed := agrees (item :: front) next rest (by rw [isItems]; rfl)
            (by rw [totalSize_cons]; omega)
          rwa [lastSize_cons] at agreed
      · refine iff_of_false (fun isLongest => ?_) (fun agrees => ?_)
        · have tooLong := isLongest.fits
          rw [totalSize_cons] at tooLong
          omega
        · have agreed := agrees [] item items rfl (by rw [totalSize_nil]; omega)
          rw [lastSize_nil] at agreed
          omega
    case isFalse noRoom =>
      constructor
      · intro isLongest front next rest isItems isRoom
        have isFull : room < size item := by
          by_contra hasRoom
          have longer := isLongest.longest [item] ⟨items, rfl⟩
            (by rw [totalSize_cons, totalSize_nil]; omega)
          exact List.cons_ne_nil _ _ (List.prefix_nil.mp longer)
        cases front with
        | nil =>
          obtain ⟨rfl, rfl⟩ := List.cons.inj isItems
          rw [lastSize_nil]
          omega
        | cons first front =>
          obtain ⟨rfl, isRest⟩ := List.cons.inj isItems
          rw [totalSize_cons] at isRoom
          omega
      · intro agrees
        refine LongestFront.of_split (List.nil_append _).symm (Nat.zero_le _) ?_
        rintro next ⟨⟩
        rw [totalSize_nil]
        by_contra hasRoom
        have agreed := agrees [] item items rfl (by rw [totalSize_nil]; omega)
        rw [lastSize_nil] at agreed
        omega

theorem frontByLast_ne_nil {last : Nat} (hasRoom : last ≤ room) (notEmpty : items ≠ []) :
    frontByLast size room last items ≠ [] := by
  obtain ⟨item, rest, rfl⟩ := List.exists_cons_of_ne_nil notEmpty
  rw [frontByLast, if_pos hasRoom]
  exact List.cons_ne_nil _ _

/-- At most one more than there is room for is taken, and then for an item of two where there
is room for one. -/
theorem totalSize_frontByLast_le (sizes : ∀ item ∈ items, 1 ≤ size item ∧ size item ≤ 2)
    {last : Nat} (isLast : 1 ≤ last) :
    totalSize size (frontByLast size room last items) ≤ room ∨
      totalSize size (frontByLast size room last items) = room + 1 ∧
        ∃ front next rest, items = front ++ next :: rest ∧ totalSize size front + 1 = room ∧
          size next = 2 := by
  induction items generalizing room last with
  | nil => exact .inl (Nat.zero_le _)
  | cons item items ih =>
    have isSize := sizes item List.mem_cons_self
    rw [frontByLast]
    split
    case isFalse => exact .inl (Nat.zero_le _)
    case isTrue hasRoom =>
      rw [totalSize_cons]
      have others := @ih (room - size item)
        (fun other within => sizes other (List.mem_cons_of_mem item within)) _ isSize.1
      rcases Nat.lt_or_ge room (size item) with tooLong | fits
      · refine .inr ⟨?_, [], item, items, rfl, ?_, ?_⟩
        · have none : frontByLast size (room - size item) (size item) items = [] := by
            cases items with
            | nil => rfl
            | cons next items => exact if_neg (by omega)
          rw [none, totalSize_nil]
          omega
        · rw [totalSize_nil]
          omega
        · omega
      · rcases others with atMost | ⟨isMore, front, next, rest, rfl, isRoom, isNext⟩
        · exact .inl (by omega)
        · refine .inr ⟨by omega, item :: front, next, rest, rfl, ?_, isNext⟩
          rw [totalSize_cons]
          omega

/-- At most one less than there is room for is taken, and then behind an item of two, or all. -/
theorem le_totalSize_frontByLast (sizes : ∀ item ∈ items, 1 ≤ size item ∧ size item ≤ 2)
    {last : Nat} (isLast : last ≤ 2) (hasRoom : last ≤ room) :
    frontByLast size room last items = items ∨
      room ≤ totalSize size (frontByLast size room last items) ∨
        totalSize size (frontByLast size room last items) + 1 = room ∧
          ∃ front next rest, items = front ++ next :: rest ∧ size next = 2 ∧
            totalSize size (front ++ [next]) + 1 = room := by
  induction items generalizing room last with
  | nil => exact .inl rfl
  | cons item items ih =>
    have isSize := sizes item List.mem_cons_self
    rw [frontByLast, if_pos hasRoom, totalSize_cons]
    rcases Nat.lt_or_ge (room - size item) (size item) with stops | goesOn
    · cases items with
      | nil => exact .inl rfl
      | cons next items =>
        rw [frontByLast, if_neg (Nat.not_le.mpr stops), totalSize_nil]
        rcases Nat.lt_or_ge (size item) room with less | more
        · refine .inr (.inr ⟨by omega, [], item, next :: items, rfl, by omega, ?_⟩)
          rw [List.nil_append, totalSize_cons, totalSize_nil]
          omega
        · exact .inr (.inl (by omega))
    · rcases @ih (room - size item)
          (fun other within => sizes other (List.mem_cons_of_mem item within)) _ isSize.2 goesOn with
        all | atLeast | ⟨isLess, front, next, rest, rfl, isNext, isRoom⟩
      · exact .inl (by rw [all])
      · exact .inr (.inl (by omega))
      · refine .inr (.inr ⟨by omega, item :: front, next, rest, rfl, isNext, ?_⟩)
        rw [List.cons_append, totalSize_cons]
        omega

/-- Behind an item of two nothing more is taken where there is room for one. -/
theorem frontByLast_stops (sizes : ∀ item ∈ items, 1 ≤ size item ∧ size item ≤ 2)
    {last : Nat} (isLast : last ≤ 2) {next : α} (isItems : items = front ++ next :: rest)
    (isNext : size next = 2) (isRoom : totalSize size (front ++ [next]) + 1 = room) :
    frontByLast size room last items = front ++ [next] := by
  induction front generalizing items room last with
  | nil =>
    subst isItems
    rw [List.nil_append, totalSize_cons, totalSize_nil] at isRoom
    rw [List.nil_append, frontByLast, if_pos (by omega)]
    cases rest with
    | nil => rfl
    | cons after rest => rw [frontByLast, if_neg (by omega)]; rfl
  | cons item front ih =>
    subst isItems
    have isSize := sizes item List.mem_cons_self
    rw [List.cons_append, totalSize_cons] at isRoom
    have atLeast := totalSize_append size front [next]
    rw [totalSize_cons, totalSize_nil] at atLeast
    have others := @ih (room - size item) (front ++ next :: rest)
      (fun other within => sizes other (List.mem_cons_of_mem item within)) _ isSize.2 rfl (by omega)
    rw [List.cons_append, frontByLast, if_pos (by omega), others]
    rfl

end Wisebot.Lib.Fitting
