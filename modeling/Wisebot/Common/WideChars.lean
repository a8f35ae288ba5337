import Wisebot.Lib.Fitting

namespace Wisebot.Common

open Lib.Fitting

/-! Texts of characters of one and of two bytes. -/

/-- A character of a text that has none of two bytes whose second byte is below
`trailFrom`. -/
inductive WideChar (trailFrom : UInt8)
  | single (byte : UInt8) (inside : byte ≠ 0) (isLow : byte < 0x80)
  | double (lead trail : UInt8) (isLead : 0x80 ≤ lead) (isTrail : trailFrom ≤ trail)

namespace WideChar

variable {trailFrom : UInt8}

def bytes : WideChar trailFrom → List UInt8
  | .single byte _ _ => [byte]
  | .double lead trail _ _ => [lead, trail]

def width : WideChar trailFrom → Nat
  | .single .. => 1
  | .double .. => 2

def text (chars : List (WideChar trailFrom)) : List UInt8 := chars.flatMap bytes

@[simp] theorem text_nil : text ([] : List (WideChar trailFrom)) = [] := rfl

@[simp] theorem text_cons (char : WideChar trailFrom) (chars : List (WideChar trailFrom)) :
    text (char :: chars) = char.bytes ++ text chars := rfl

@[simp] theorem text_append (front rest : List (WideChar trailFrom)) :
    text (front ++ rest) = text front ++ text rest := List.flatMap_append

theorem length_bytes (char : WideChar trailFrom) : char.bytes.length = char.width := by
  cases char <;> rfl

theorem width_bounds (char : WideChar trailFrom) : 1 ≤ char.width ∧ char.width ≤ 2 := by
  cases char
  · exact ⟨le_refl _, Nat.le_succ _⟩
  · exact ⟨Nat.le_succ _, le_refl _⟩

theorem length_text (chars : List (WideChar trailFrom)) :
    (text chars).length = totalSize width chars := by
  induction chars with
  | nil => rfl
  | cons char chars ih => rw [text_cons, List.length_append, length_bytes, ih, totalSize_cons]

theorem text_injective {chars front other : List (WideChar trailFrom)} (isFront : front <+: chars)
    (isOther : other <+: chars) (same : text front = text other) : front = other := by
  have sameLength : totalSize width front = totalSize width other := by
    rw [← length_text, ← length_text, same]
  have empty : ∀ rest : List (WideChar trailFrom), totalSize width rest = 0 → rest = [] := by
    intro rest isZero
    cases rest with
    | nil => rfl
    | cons char rest =>
      rw [totalSize_cons] at isZero
      have positive := char.width_bounds.1
      omega
  rcases List.prefix_or_prefix_of_prefix isFront isOther with ⟨rest, rfl⟩ | ⟨rest, rfl⟩
  · rw [totalSize_append] at sameLength
    rw [empty rest (by omega), List.append_nil]
  · rw [totalSize_append] at sameLength
    rw [empty rest (by omega), List.append_nil]

end WideChar

end Wisebot.Common
