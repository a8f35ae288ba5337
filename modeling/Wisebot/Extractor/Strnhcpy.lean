import Wisebot.Common.WideChars
import Wisebot.Extractor.ComplexNoun

namespace Wisebot.Extractor

open Common Common.WideChar Lib.Fitting

/-! What `strnhcpy` copies of a text of whole characters. -/

variable {room last : Nat}

theorem not_isLead {byte : UInt8} (isLow : byte < 0x80) : ¬ 0x80 ≤ byte :=
  UInt8.not_le.mpr isLow

theorem strnhcpy_single {len copied : Nat} {byte : UInt8} (isLow : byte < 0x80)
    (rest : List UInt8) :
    strnhcpy len copied (byte :: rest) =
      byte :: if copied + 2 ≤ len then strnhcpy len (copied + 1) rest else [] := by
  cases rest with
  | nil => simp [strnhcpy]
  | cons second rest => rw [strnhcpy, if_neg fun both => not_isLead isLow both.1]

/-- The characters are taken one by one, each if there is room for one more like the one
before it. -/
theorem strnhcpy_text {len copied : Nat} (hasRoom : copied + last ≤ len)
    (chars : List (WideChar 0x30)) :
    strnhcpy len copied (text chars) = text (frontByLast width (len - copied) last chars) := by
  induction chars generalizing copied last with
  | nil => rfl
  | cons char chars ih =>
    have behind : frontByLast width (len - copied) last (char :: chars) =
        char :: frontByLast width (len - (copied + char.width)) char.width chars := by
      rw [frontByLast, if_pos (by omega), Nat.sub_sub]
    have following : (if copied + char.width + char.width ≤ len then
          strnhcpy len (copied + char.width) (text chars) else []) =
        text (frontByLast width (len - (copied + char.width)) char.width chars) := by
      split
      case isTrue more => exact ih more
      case isFalse full =>
        cases chars with
        | nil => rfl
        | cons next chars =>
          rw [frontByLast, if_neg (by have := char.width_bounds; omega)]
          rfl
    rw [behind, text_cons, text_cons, ← following]
    cases char with
    | single byte inside isLow => exact strnhcpy_single isLow _
    | double lead trail isLead isTrail =>
      change strnhcpy len copied (lead :: trail :: text chars) = _
      rw [strnhcpy, if_pos ⟨isLead, isTrail⟩]
      rfl

/-- The longest part of whole characters with at most `len` bytes is copied, with at most
`len + 1` bytes written, exactly when a character that begins one byte before the limit is
as wide as the one before it, or has one byte where it is the first. -/
theorem strnhcpy_longest_iff (chars : List (WideChar 0x30)) (len : Nat) (someRoom : 1 ≤ len) :
    ((strnhcpy len 0 (text chars)).length + 1 ≤ len + 1 ∧
      ∃ whole, LongestFront width len chars whole ∧
        strnhcpy len 0 (text chars) = text whole) ↔
      ∀ front char rest, chars = front ++ char :: rest → (text front).length + 1 = len →
        char.width = lastSize width 1 front := by
  have hasRoom : 0 + 1 ≤ len := by
    rw [Nat.zero_add]
    exact someRoom
  have copied := strnhcpy_text hasRoom chars
  have isIff := @longestFront_frontByLast_iff _ width len chars
    (fun char _ => char.width_bounds) 1 ⟨le_refl _, Nat.le_succ _⟩
  rw [Nat.sub_zero] at copied
  simp only [length_text]
  rw [← isIff, copied]
  constructor
  · rintro ⟨-, whole, isLongest, same⟩
    rwa [text_injective (frontByLast_front _ _ _) isLongest.isFront same]
  · intro isLongest
    refine ⟨?_, _, isLongest, rfl⟩
    rw [length_text]
    exact Nat.succ_le_succ isLongest.fits

theorem strnhcpy_longest_two :
    (strnhcpy 2 0 [97]).length + 1 ≤ 2 + 1 ∧
      ∃ whole : List (WideChar 0x30),
        LongestFront width 2 [.single 97 (by decide) (by decide)] whole ∧
          strnhcpy 2 0 [97] = text whole := by
  refine (strnhcpy_longest_iff [.single 97 (by decide) (by decide)] 2 (by decide)).mpr ?_
  intro front char rest isChars isRoom
  cases front with
  | nil => cases isRoom
  | cons first front =>
    obtain ⟨-, isNil⟩ := List.cons.inj isChars
    cases front <;> cases isNil

/-- A character of two bytes is copied behind one of one byte where there is room for one
byte more. -/
theorem strnhcpy_notLongest :
    ¬ ((strnhcpy 2 0 [97, 0xb0, 0xa1]).length + 1 ≤ 2 + 1 ∧
      ∃ whole : List (WideChar 0x30),
        LongestFront width 2
            [.single 97 (by decide) (by decide), .double 0xb0 0xa1 (by decide) (by decide)]
            whole ∧
          strnhcpy 2 0 [97, 0xb0, 0xa1] = text whole) :=
  fun both => absurd both.1 (by decide)

end Wisebot.Extractor
