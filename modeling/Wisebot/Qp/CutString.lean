import Wisebot.Common.Hangul
import Wisebot.Common.MemfileCalls
import Wisebot.Common.WideChars

namespace Wisebot.Qp

open Common Common.WideChar Lib.Fitting

/-! `cut_string` of `mod_qp/mod_qp2.c` and of `mod_qpp/mod_qpp.c`, which are the same. A text
is its bytes before the NUL; a NUL that is written in it cuts it. -/

/-- The loop over `engIdx`, which goes down to 0. -/
def countHigh (text : List UInt8) : (places : Nat) → Nat
  | 0 => 0
  | engIdx + 1 => if 0 ≤ charValue (byteAt text engIdx) then 0 else countHigh text engIdx + 1

def cutString (text : List UInt8) (maxLen : Nat) : List UInt8 :=
  if toInt text.length ≤ maxLen then text
  else
    let korCnt := countHigh text (maxLen + 1)
    if korCnt = 0 ∨ korCnt % 2 = 1 then text.take maxLen else text.take (maxLen - 1)

theorem charValue_low {byte : UInt8} (isLow : byte < 0x80) : 0 ≤ charValue byte := by
  have below : byte.toNat < 128 := UInt8.lt_iff_toNat_lt.mp isLow
  rw [charValue, if_pos below]
  exact Int.natCast_nonneg _

theorem charValue_high {byte : UInt8} (isHigh : 0x80 ≤ byte) : ¬ 0 ≤ charValue byte := by
  have small := byte.toNat_lt
  have above : 128 ≤ byte.toNat := UInt8.le_iff_toNat_le.mp isHigh
  rw [charValue, if_neg (Nat.not_lt.mpr above)]
  omega

theorem countHigh_whole (front : List (WideChar 0x80)) (rest : List UInt8) :
    countHigh (text front ++ rest) (text front).length % 2 = 0 := by
  induction front using List.reverseRecOn generalizing rest with
  | nil => rfl
  | append_singleton front char ih =>
    rw [text_append, text_cons, text_nil, List.append_nil, List.append_assoc, List.length_append]
    cases char with
    | single byte inside isLow =>
      change countHigh (text front ++ byte :: rest) ((text front).length + 1) % 2 = 0
      rw [countHigh, byteAt_append, if_pos (charValue_low isLow)]
    | double lead trail isLead isTrail =>
      change countHigh (text front ++ lead :: trail :: rest) ((text front).length + 2) % 2 = 0
      rw [countHigh, byteAt_append_succ, if_neg (charValue_high isTrail), countHigh,
        byteAt_append, if_neg (charValue_high isLead)]
      have even := ih (lead :: trail :: rest)
      omega

theorem cutString_append {front rest : List (WideChar 0x80)} {char : WideChar 0x80}
    {maxLen : Nat} (begins : (text front).length ≤ maxLen)
    (ends : maxLen < (text front).length + char.width)
    (long : (maxLen : Int) < toInt (text (front ++ char :: rest)).length) :
    cutString (text (front ++ char :: rest)) maxLen = text front := by
  have even := countHigh_whole front (text (char :: rest))
  rw [cutString, if_neg (Int.not_le.mpr long)]
  rw [text_append] at *
  cases char with
  | single byte inside isLow =>
    obtain rfl : maxLen = (text front).length := Nat.le_antisymm (Nat.le_of_lt_succ ends) begins
    have isByte : byteAt (text front ++ byte :: text rest) (text front).length = byte :=
      byteAt_append ..
    have none : countHigh (text front ++ text (.single byte inside isLow :: rest))
        ((text front).length + 1) = 0 := by
      change countHigh (text front ++ byte :: text rest) ((text front).length + 1) = 0
      rw [countHigh, isByte, if_pos (charValue_low isLow)]
    simp only [none, true_or, if_true]
    exact List.take_left
  | double lead trail isLead isTrail =>
    change countHigh (text front ++ lead :: trail :: text rest) (text front).length % 2 = 0 at even
    have onLead : countHigh (text front ++ text (.double lead trail isLead isTrail :: rest))
        ((text front).length + 1) =
        countHigh (text front ++ lead :: trail :: text rest) (text front).length + 1 := by
      change countHigh (text front ++ lead :: trail :: text rest) ((text front).length + 1) = _
      rw [countHigh, byteAt_append, if_neg (charValue_high isLead)]
    rcases Nat.lt_or_ge (text front).length maxLen with onTrail | atStart
    · obtain rfl : maxLen = (text front).length + 1 :=
        Nat.le_antisymm (Nat.le_of_lt_succ ends) onTrail
      have both : countHigh (text front ++ text (.double lead trail isLead isTrail :: rest))
          ((text front).length + 1 + 1) =
          countHigh (text front ++ lead :: trail :: text rest) (text front).length + 2 := by
        change
          countHigh (text front ++ lead :: trail :: text rest) ((text front).length + 1 + 1) = _
        rw [countHigh, byteAt_append_succ, if_neg (charValue_high isTrail)]
        exact congrArg (· + 1) onLead
      simp only [both]
      rw [if_neg (by omega), Nat.add_sub_cancel, List.take_left]
    · obtain rfl : maxLen = (text front).length := Nat.le_antisymm atStart begins
      simp only [onLead]
      rw [if_pos (by omega), List.take_left]

/-- A text whose length is kept in an `int` is cut to the longest part of whole characters
that has no more bytes. -/
theorem cutString_longest (chars : List (WideChar 0x80)) (maxLen : Nat)
    (isInt : (text chars).length < 2 ^ 31) :
    ∃ whole, LongestFront width maxLen chars whole ∧
      cutString (text chars) maxLen = text whole := by
  have isLength := length_text chars
  rcases Nat.lt_or_ge maxLen (text chars).length with long | short
  · obtain ⟨front, char, rest, rfl, isLongest⟩ := exists_longestFront (isLength ▸ long)
    obtain ⟨begins, ends⟩ := longestFront_append_iff.mp isLongest
    rw [← length_text] at begins ends
    refine ⟨front, isLongest, cutString_append begins (ends char rfl) ?_⟩
    rw [toInt_of_lt isInt]
    exact Int.ofNat_lt.mpr long
  · refine ⟨chars, longestFront_self (isLength ▸ short), ?_⟩
    rw [cutString, if_pos]
    rw [toInt_of_lt isInt]
    exact Int.ofNat_le.mpr short

theorem cutString_longest_two :
    ∃ whole : List (WideChar 0x80),
      LongestFront width 2
          [.single 97 (by decide) (by decide), .double 0xb0 0xa1 (by decide) (by decide)] whole ∧
        cutString [97, 0xb0, 0xa1] 2 = text whole :=
  cutString_longest
    [.single 97 (by decide) (by decide), .double 0xb0 0xa1 (by decide) (by decide)] 2 (by decide)

/-- A text of `2 ^ 31` bytes has a negative length as an `int` and is not cut. -/
theorem cutString_notLongest :
    ¬ ∃ whole : List (WideChar 0x80),
      LongestFront width 0
          (List.replicate 2147483648 (.single 97 (by decide) (by decide))) whole ∧
        cutString (text (List.replicate 2147483648
          (.single 97 (by decide) (by decide) : WideChar 0x80))) 0 = text whole := by
  rintro ⟨whole, isLongest, same⟩
  have isLength : (text (List.replicate 2147483648
      (.single 97 (by decide) (by decide) : WideChar 0x80))).length = 2147483648 := by
    rw [length_text, totalSize, List.map_replicate, List.sum_replicate_nat]
    exact Nat.mul_one _
  have negative : toInt 2147483648 ≤ (0 : Nat) := by decide
  rw [cutString, isLength, if_pos negative] at same
  have fits := isLongest.fits
  rw [← length_text, ← same, isLength] at fits
  omega

end Wisebot.Qp
