import Mathlib.Data.Int.Order.Basic
import Mathlib.Order.Basic

namespace Wisebot.Lib.Comparing

open Std

universe u

variable {α : Type u}

/-! Comparisons one after another: the first one that tells two elements apart
decides, and its answer is read as a number. -/

/-- The number of an answer: negative, zero or positive. -/
def sign : Ordering → Int
  | .lt => -1
  | .eq => 0
  | .gt => 1

@[simp] theorem sign_swap (ordering : Ordering) : sign ordering.swap = -sign ordering := by
  cases ordering <;> rfl

theorem sign_nonpos_iff (ordering : Ordering) : sign ordering ≤ 0 ↔ ordering.isLE = true := by
  cases ordering <;> decide

theorem sign_then (first second : Ordering) :
    sign (first.then second) = if sign first ≠ 0 then sign first else sign second := by
  cases first <;> rfl

theorem sign_injective {left right : Ordering} (same : sign left = sign right) : left = right := by
  cases left <;> cases right <;> first | rfl | exact absurd same (by decide)

theorem sign_compare (left right : Int) : sign (compare left right) = (left - right).sign := by
  rcases Int.lt_trichotomy left right with below | same | above
  · rw [Int.compare_eq_lt.mpr below, Int.sign_eq_neg_one_of_neg (by omega)]
    rfl
  · rw [Int.compare_eq_eq.mpr same, same, Int.sub_self]
    rfl
  · rw [Int.compare_eq_gt.mpr above, Int.sign_eq_one_of_pos (by omega)]
    rfl

theorem sign_compare_nat (left right : Nat) :
    sign (compare left right) = ((left : Int) - right).sign := by
  rcases Nat.lt_trichotomy left right with below | same | above
  · rw [Nat.compare_eq_lt.mpr below, Int.sign_eq_neg_one_of_neg (by omega)]
    rfl
  · rw [Nat.compare_eq_eq.mpr same, same, Int.sub_self]
    rfl
  · rw [Nat.compare_eq_gt.mpr above, Int.sign_eq_one_of_pos (by omega)]
    rfl

/-- The first comparison that tells two elements apart. -/
def lexicographic : List (α → α → Ordering) → α → α → Ordering
  | [] => fun _ _ => .eq
  | order :: rest => compareLex order (lexicographic rest)

theorem lexicographic_cons (order : α → α → Ordering) (rest : List (α → α → Ordering))
    (first second : α) :
    lexicographic (order :: rest) first second =
      (order first second).then (lexicographic rest first second) := rfl

theorem lexicographic_trans {orders : List (α → α → Ordering)}
    (each : ∀ order ∈ orders, TransCmp order) : TransCmp (lexicographic orders) := by
  induction orders with
  | nil => exact { eq_swap := rfl, isLE_trans := fun _ _ => rfl }
  | cons order rest ih =>
    have head : TransCmp order := each order List.mem_cons_self
    have tail : TransCmp (lexicographic rest) :=
      ih fun other member => each other (List.mem_cons_of_mem order member)
    exact inferInstanceAs (TransCmp (compareLex order (lexicographic rest)))

/-- What is asked of a comparison with numbers as answers: it is an order. -/
structure Orders (compare : α → α → Int) (elements : Set α) : Prop where
  antisymmetric : ∀ first ∈ elements, ∀ second ∈ elements,
    compare second first = -compare first second
  transitive : ∀ first ∈ elements, ∀ second ∈ elements, ∀ third ∈ elements,
    compare first second ≤ 0 → compare second third ≤ 0 → compare first third ≤ 0

theorem Orders.of_sign {compare : α → α → Int} {elements : Set α} {order : α → α → Ordering}
    [TransCmp order]
    (agrees : ∀ first ∈ elements, ∀ second ∈ elements,
      compare first second = sign (order first second)) : Orders compare elements := by
  constructor
  · intro first isFirst second isSecond
    rw [agrees second isSecond first isFirst, agrees first isFirst second isSecond,
      @OrientedCmp.eq_swap _ order, sign_swap]
  · intro first isFirst second isSecond third isThird below above
    rw [agrees first isFirst second isSecond, sign_nonpos_iff] at below
    rw [agrees second isSecond third isThird, sign_nonpos_iff] at above
    rw [agrees first isFirst third isThird, sign_nonpos_iff]
    exact TransCmp.isLE_trans below above

end Wisebot.Lib.Comparing
