import Wisebot.Common.Hangul
import Wisebot.Extractor.Strnhcpy

namespace Wisebot.Extractor.Sentences

open Common Common.WideChar Lib.Fitting

/-! How `mod_koma.c` cuts a text into parts that are analysed one by one. Strings are their
bytes before the NUL; `sb_hanja2hangul` is taken to leave the text as it is. -/

/-- `MAX_SENTENCE_LENGTH`, and `MOD_KOMA_SENTENCE_LEN`, the size of `text`. -/
def maxSentenceLength : Nat := 10240

/-- `IS_WHITE_CHAR` -/
def isWhiteChar (c : UInt8) : Bool := c = 32 || c = 10 || c = 13 || c = 9

/-- Places count from `start` on; the rounds are those to `end`. -/
def findNewline (text : List UInt8) : (rounds place : Nat) → Option Nat
  | 0, _ => none
  | rounds + 1, place =>
    if byteAt text place = 0 then some place
    else if byteAt text place = 10 then some (place + 1)
    else findNewline text rounds (place + 1)

def findSentenceEnd (text : List UInt8) : (rounds place : Nat) → Option Nat
  | 0, _ => none
  | rounds + 1, place =>
    let mark := byteAt text place
    let next := byteAt text (place + 1)
    if isWhiteChar next ∧ (mark = 46 ∨ mark = 63 ∨ mark = 33) then some (place + 2)
    else if next = 0 then some (place + 1)
    else findSentenceEnd text rounds (place + 1)

/-- From the end down to behind `start`. -/
def findWhitespace (text : List UInt8) : (place : Nat) → Option Nat
  | 0 => none
  | place + 1 =>
    if isWhiteChar (byteAt text (place + 1)) then some (place + 1)
    else findWhitespace text place

/-- The loop of `find_last_hangul`. -/
def highBytes (text : List UInt8) : (place : Nat) → Nat
  | 0 => 0
  | place + 1 => if 0x80 ≤ byteAt text (place + 1) then highBytes text place + 1 else 0

def findLastHangul (text : List UInt8) (place : Nat) : Nat :=
  if highBytes text place % 2 = 1 then place + 1 else place

/-- How far it is to the `end` that the searches of `move_text` choose. -/
def cutPlace (text : List UInt8) : Nat :=
  (((findNewline text maxSentenceLength 0).or (findSentenceEnd text maxSentenceLength 0)).or
    (findWhitespace text maxSentenceLength)).getD (findLastHangul text maxSentenceLength)

/-- What `move_text` uses of `koma_handle_t`. -/
structure Handle where
  text : List UInt8
  textLength : Nat
  bytePosition : Nat
  nextText : Option (List UInt8)
  nextLength : Nat
  resultIndex : Nat
  resultCount : Nat

/-- `none` is a write behind the end of `text`. The character behind the copied text is its
NUL and no `'\r'`. -/
def moveText (h : Handle) : Option Handle :=
  match h.nextText with
  | none => some { h with text := [] }
  | some start =>
    if start = [] then some { h with text := [] }
    else
      let text := strnhcpy (cutPlace start) 0 start
      if text.length < maxSentenceLength then
        let next := start.drop text.length
        some
          { text := text
            textLength := text.length
            bytePosition := h.bytePosition + text.length
            nextText := if next = [] then none else some next
            nextLength := next.length
            resultIndex := 0
            resultCount := 0 }
      else none

def komaSetText (h : Handle) (text : List UInt8) : Handle :=
  { h with
    text := []
    bytePosition := 0
    nextText := some text
    nextLength := text.length }

section Searches

variable {text : List UInt8} {rounds place found : Nat}

theorem findNewline_spec (isFound : findNewline text rounds place = some found) :
    place ≤ found ∧ (byteAt text found = 0 ∨ place < found ∧ byteAt text (found - 1) = 10) := by
  induction rounds generalizing place with
  | zero => cases isFound
  | succ rounds ih =>
    rw [findNewline] at isFound
    split at isFound
    · cases isFound
      exact ⟨le_refl _, .inl ‹_›⟩
    · split at isFound
      · cases isFound
        exact ⟨Nat.le_succ _, .inr ⟨Nat.lt_succ_self _, ‹_›⟩⟩
      · obtain ⟨later, isCut⟩ := ih isFound
        exact ⟨by omega, isCut.imp_right fun isLine => ⟨by omega, isLine.2⟩⟩

theorem findNewline_short (within : place ≤ text.length) (short : text.length < place + rounds) :
    ∃ found, findNewline text rounds place = some found ∧ found ≤ text.length := by
  induction rounds generalizing place with
  | zero => omega
  | succ rounds ih =>
    rw [findNewline]
    split
    case isTrue => exact ⟨_, rfl, within⟩
    case isFalse inside =>
      have notEnd : place ≠ text.length := by
        rintro rfl
        exact inside (by simp [byteAt])
      split
      case isTrue => exact ⟨_, rfl, by omega⟩
      case isFalse => exact ih (by omega) (by omega)

theorem findSentenceEnd_spec (isFound : findSentenceEnd text rounds place = some found) :
    place < found ∧ (byteAt text found = 0 ∨ isWhiteChar (byteAt text (found - 1)) = true) := by
  induction rounds generalizing place with
  | zero => cases isFound
  | succ rounds ih =>
    rw [findSentenceEnd] at isFound
    split at isFound
    · rename_i isEnd
      cases isFound
      exact ⟨by omega, .inr isEnd.1⟩
    · split at isFound
      · cases isFound
        exact ⟨Nat.lt_succ_self _, .inl ‹_›⟩
      · obtain ⟨later, isCut⟩ := ih isFound
        exact ⟨by omega, isCut⟩

theorem findWhitespace_spec (isFound : findWhitespace text place = some found) :
    0 < found ∧ isWhiteChar (byteAt text found) = true := by
  induction place with
  | zero => cases isFound
  | succ place ih =>
    rw [findWhitespace] at isFound
    split at isFound
    · cases isFound
      exact ⟨Nat.succ_pos _, ‹_›⟩
    · exact ih isFound

theorem isWhiteChar_low {c : UInt8} (white : isWhiteChar c = true) : c < 0x30 := by
  simp only [isWhiteChar, Bool.or_eq_true, decide_eq_true_eq] at white
  rcases white with ((rfl | rfl) | rfl) | rfl <;> decide

/-- The text is cut behind its first byte; and before the limit, before a byte that ends no
character of two, or behind one that begins none. -/
theorem cutPlace_spec (inside : byteAt text 0 ≠ 0) :
    1 ≤ cutPlace text ∧
      (cutPlace text < maxSentenceLength →
        byteAt text (cutPlace text) < 0x30 ∨ byteAt text (cutPlace text - 1) < 0x80) := by
  have isLimit : maxSentenceLength = 10240 := rfl
  rw [cutPlace]
  cases newline : findNewline text maxSentenceLength 0 with
  | some found =>
    obtain ⟨-, isZero | ⟨positive, isLine⟩⟩ := findNewline_spec newline
    · refine ⟨Nat.one_le_iff_ne_zero.mpr ?_, fun _ => .inl ?_⟩
      · rintro rfl
        exact inside isZero
      · change byteAt text found < 0x30
        rw [isZero]
        decide
    · refine ⟨positive, fun _ => .inr ?_⟩
      change byteAt text (found - 1) < 0x80
      rw [isLine]
      decide
  | none =>
    cases sentence : findSentenceEnd text maxSentenceLength 0 with
    | some found =>
      obtain ⟨positive, isZero | white⟩ := findSentenceEnd_spec sentence
      · refine ⟨positive, fun _ => .inl ?_⟩
        change byteAt text found < 0x30
        rw [isZero]
        decide
      · exact ⟨positive, fun _ => .inr (UInt8.lt_trans (isWhiteChar_low white) (by decide))⟩
    | none =>
      cases blank : findWhitespace text maxSentenceLength with
      | some found =>
        obtain ⟨positive, white⟩ := findWhitespace_spec blank
        exact ⟨positive, fun _ => .inl (isWhiteChar_low white)⟩
      | none =>
        change 1 ≤ findLastHangul text maxSentenceLength ∧
          (findLastHangul text maxSentenceLength < maxSentenceLength → _)
        have atLeast : maxSentenceLength ≤ findLastHangul text maxSentenceLength := by
          rw [findLastHangul]
          split <;> omega
        exact ⟨by omega, fun never => absurd never (Nat.not_lt.mpr atLeast)⟩

theorem le_length_of_cutPlace (far : maxSentenceLength ≤ cutPlace text) :
    maxSentenceLength ≤ text.length := by
  by_contra short
  obtain ⟨found, isFound, within⟩ := @findNewline_short text maxSentenceLength 0 (Nat.zero_le _)
    (by omega)
  have isCut : cutPlace text = found := by
    rw [cutPlace, isFound]
    rfl
  omega

end Searches

def part (chars : List (WideChar 0x30)) : List (WideChar 0x30) :=
  frontByLast width (cutPlace (text chars)) 1 chars

/-- The text is cut before the limit, or at the limit with a character of two bytes that ends
one byte before it. -/
def CutFits (chars : List (WideChar 0x30)) : Prop :=
  cutPlace (text chars) < maxSentenceLength ∨
    cutPlace (text chars) = maxSentenceLength ∧
      ∃ front char rest, chars = front ++ char :: rest ∧ char.width = 2 ∧
        (text (front ++ [char])).length + 1 = maxSentenceLength

theorem byteAt_text_ne_zero {char : WideChar 0x30} {chars : List (WideChar 0x30)} :
    byteAt (text (char :: chars)) 0 ≠ 0 := by
  cases char with
  | single byte inside isLow => exact inside
  | double lead trail isLead isTrail =>
    intro isZero
    have zero : lead = 0 := isZero
    rw [zero] at isLead
    exact absurd isLead (by decide)

variable {chars : List (WideChar 0x30)}

theorem one_le_cutPlace (notEmpty : chars ≠ []) : 1 ≤ cutPlace (text chars) := by
  obtain ⟨char, rest, rfl⟩ := List.exists_cons_of_ne_nil notEmpty
  exact (cutPlace_spec byteAt_text_ne_zero).1

theorem strnhcpy_cutPlace (notEmpty : chars ≠ []) :
    strnhcpy (cutPlace (text chars)) 0 (text chars) = text (part chars) := by
  have hasRoom : 0 + 1 ≤ cutPlace (text chars) := by
    rw [Nat.zero_add]
    exact one_le_cutPlace notEmpty
  exact strnhcpy_text hasRoom chars

theorem not_cut_through {front rest : List (WideChar 0x30)} {char : WideChar 0x30}
    (isText : chars = front ++ char :: rest)
    (isCut : (text front).length + 1 = cutPlace (text chars)) (isWide : char.width = 2)
    (before : cutPlace (text chars) < maxSentenceLength) : False := by
  have notEmpty : chars ≠ [] := by
    rw [isText]
    exact List.append_ne_nil_of_right_ne_nil _ (List.cons_ne_nil _ _)
  obtain ⟨first, others, isFirst⟩ := List.exists_cons_of_ne_nil notEmpty
  have inside : byteAt (text chars) 0 ≠ 0 := by
    rw [isFirst]
    exact byteAt_text_ne_zero
  have isClean := (cutPlace_spec inside).2 before
  cases char with
  | single byte inside isLow => cases isWide
  | double lead trail isLead isTrail =>
    have isBytes : text chars = text front ++ lead :: trail :: text rest := by
      rw [isText, text_append, text_cons]
      rfl
    have isLead' : byteAt (text chars) (cutPlace (text chars) - 1) = lead := by
      rw [← isCut, isBytes, Nat.add_sub_cancel]
      exact byteAt_append ..
    have isTrail' : byteAt (text chars) (cutPlace (text chars)) = trail := by
      rw [← isCut, isBytes]
      exact byteAt_append_succ ..
    rw [isLead', isTrail'] at isClean
    rcases isClean with low | low
    · exact absurd (UInt8.lt_of_lt_of_le low isTrail) (UInt8.lt_irrefl _)
    · exact absurd (UInt8.lt_of_lt_of_le low isLead) (UInt8.lt_irrefl _)

theorem length_part_lt_iff (notEmpty : chars ≠ []) :
    (text (part chars)).length < maxSentenceLength ↔ CutFits chars := by
  have sizes : ∀ char ∈ chars, 1 ≤ char.width ∧ char.width ≤ 2 := fun char _ => char.width_bounds
  have positive := one_le_cutPlace notEmpty
  have isLimit : maxSentenceLength = 10240 := rfl
  rw [CutFits, length_text, part]
  rcases Nat.lt_trichotomy (cutPlace (text chars)) maxSentenceLength with before | atLimit | behind
  · refine iff_of_true ?_ (.inl before)
    rcases totalSize_frontByLast_le sizes (le_refl 1) with
      atMost | ⟨_, front, char, rest, isText, isCut, isWide⟩
    · exact atMost.trans_lt before
    · rw [← length_text] at isCut
      exact (not_cut_through isText isCut isWide before).elim
  · rw [or_iff_right (by omega)]
    constructor
    · intro fits
      refine ⟨atLimit, ?_⟩
      rcases le_totalSize_frontByLast sizes (Nat.le_succ 1) positive with
        all | atLeast | ⟨_, front, char, rest, isText, isWide, isEnd⟩
      · have long := le_length_of_cutPlace atLimit.ge
        rw [length_text, ← all] at long
        omega
      · omega
      · exact ⟨front, char, rest, isText, isWide, by rw [length_text, isEnd, atLimit]⟩
    · rintro ⟨_, front, char, rest, isText, isWide, isEnd⟩
      rw [length_text] at isEnd
      rw [frontByLast_stops sizes (Nat.le_succ 1) isText isWide (isEnd.trans atLimit.symm)]
      omega
  · refine iff_of_false ?_ (by omega)
    rcases le_totalSize_frontByLast sizes (Nat.le_succ 1) positive with
      all | atLeast | ⟨isLess, _⟩
    · have long := le_length_of_cutPlace behind.le
      rw [length_text, ← all] at long
      omega
    · omega
    · omega

/-- Calls of `move_text` until the text is empty, with the parts that they leave in it and
the number of bytes that were delivered before. -/
inductive Delivers : (delivered : Nat) → Handle → List (List (WideChar 0x30)) → Prop
  | done {delivered : Nat} {h after : Handle} (moved : moveText h = some after)
      (isEmpty : after.text = []) (isPosition : h.bytePosition = delivered) :
      Delivers delivered h []
  | step {delivered : Nat} {h after : Handle} {part : List (WideChar 0x30)}
      {parts : List (List (WideChar 0x30))} (moved : moveText h = some after)
      (progress : part ≠ []) (isText : after.text = text part)
      (fits : after.text.length + 1 ≤ maxSentenceLength)
      (isPosition : h.bytePosition = delivered)
      (others : Delivers (delivered + after.text.length) after parts) :
      Delivers delivered h (part :: parts)

def left : (calls : Nat) → List (WideChar 0x30) → List (WideChar 0x30)
  | 0, chars => chars
  | calls + 1, chars => left calls (chars.drop (part chars).length)

theorem left_nil (calls : Nat) : left calls [] = [] := by
  induction calls with
  | zero => rfl
  | succ calls ih =>
    rw [left, List.drop_nil]
    exact ih

def Holds (h : Handle) (chars : List (WideChar 0x30)) : Prop :=
  h.nextText = some (text chars) ∨ h.nextText = none ∧ chars = []

theorem text_eq_nil_iff : text chars = [] ↔ chars = [] := by
  constructor
  · intro isEmpty
    exact text_injective (List.prefix_refl chars) List.nil_prefix isEmpty
  · rintro rfl
    rfl

theorem moveText_end {h : Handle} (holds : Holds h []) :
    moveText h = some { h with text := [] } := by
  rw [moveText]
  rcases holds with isText | ⟨isNull, _⟩
  · rw [isText]
    exact if_pos rfl
  · rw [isNull]

theorem moveText_part {h : Handle} (holds : Holds h chars) (notEmpty : chars ≠ []) :
    (¬ CutFits chars ∧ moveText h = none) ∨
      CutFits chars ∧ ∃ after rest, moveText h = some after ∧ chars = part chars ++ rest ∧
        after.text = text (part chars) ∧ Holds after rest ∧
        after.bytePosition = h.bytePosition + (text (part chars)).length := by
  have isNext : h.nextText = some (text chars) :=
    holds.resolve_right fun never => notEmpty never.2
  have notOver : text chars ≠ [] := fun isEmpty => notEmpty (text_eq_nil_iff.mp isEmpty)
  have isIff := length_part_lt_iff notEmpty
  rw [moveText, isNext]
  dsimp only
  rw [if_neg notOver, strnhcpy_cutPlace notEmpty]
  by_cases fits : CutFits chars
  · obtain ⟨rest, isText⟩ := @frontByLast_front _ width (cutPlace (text chars)) 1 chars
    have isRest : (text chars).drop (text (part chars)).length = text rest := by
      have whole : text chars = text (part chars) ++ text rest := by
        rw [← text_append]
        exact congrArg text isText.symm
      rw [whole, List.drop_left]
    rw [if_pos (isIff.mpr fits), isRest]
    refine .inr ⟨fits, _, rest, rfl, isText.symm, rfl, ?_, rfl⟩
    by_cases isEmpty : text rest = []
    · exact .inr ⟨if_pos isEmpty, text_eq_nil_iff.mp isEmpty⟩
    · exact .inl (if_neg isEmpty)
  · rw [if_neg fun short => fits (isIff.mp short)]
    exact .inl ⟨fits, rfl⟩

theorem delivers_iff {h : Handle} {delivered : Nat} (holds : Holds h chars)
    (isPosition : h.bytePosition = delivered) :
    (∃ parts, Delivers delivered h parts ∧ parts.flatten = chars) ↔
      ∀ calls, left calls chars ≠ [] → CutFits (left calls chars) := by
  generalize isLength : chars.length = length
  induction length using Nat.strongRecOn generalizing chars h delivered with
  | ind length ih =>
    by_cases notEmpty : chars = []
    · subst notEmpty
      refine iff_of_true ⟨[], .done (moveText_end holds) rfl isPosition, rfl⟩ ?_
      intro calls never
      exact absurd (left_nil calls) never
    · rcases moveText_part holds notEmpty with
        ⟨notFits, moved⟩ | ⟨fits, after, rest, moved, isText, isPart, isRest, isNext⟩
      · refine iff_of_false ?_ fun all => notFits (all 0 notEmpty)
        rintro ⟨parts, delivers, _⟩
        cases delivers with
        | done isMoved => rw [moved] at isMoved; cases isMoved
        | step isMoved => rw [moved] at isMoved; cases isMoved
      · have progress : part chars ≠ [] := frontByLast_ne_nil (one_le_cutPlace notEmpty) notEmpty
        have shorter : rest.length < length := by
          have sum := congrArg List.length isText
          rw [List.length_append] at sum
          have positive := List.length_pos_iff.mpr progress
          omega
        have isLeft : ∀ calls, left (calls + 1) chars = left calls rest := by
          intro calls
          have dropped := congrArg (List.drop (part chars).length) isText
          rw [List.drop_left] at dropped
          rw [left, dropped]
        have others := ih rest.length shorter isRest (isNext.trans (by rw [isPosition])) rfl
        have isShort := (length_part_lt_iff notEmpty).mpr fits
        constructor
        · rintro ⟨parts, delivers, isAll⟩ calls
          cases delivers with
          | done isMoved isEmpty _ =>
            rw [moved] at isMoved
            obtain rfl := Option.some.inj isMoved
            exact absurd (text_eq_nil_iff.mp (isPart.symm.trans isEmpty)) progress
          | @step _ _ other front parts isMoved _ isFront _ _ more =>
            rw [moved] at isMoved
            obtain rfl := Option.some.inj isMoved
            rw [List.flatten_cons] at isAll
            have isSame : front = part chars :=
              text_injective ⟨_, isAll⟩ ⟨_, isText.symm⟩ (isFront.symm.trans isPart)
            have isTail : parts.flatten = rest := by
              refine List.append_cancel_left (isAll.trans ?_)
              rw [isSame]
              exact isText
            rw [isPart] at more
            cases calls with
            | zero => exact fun _ => fits
            | succ calls =>
              rw [isLeft]
              exact others.mp ⟨parts, more, isTail⟩ calls
        · intro all
          obtain ⟨parts, more, isTail⟩ := others.mpr fun calls => by
            rw [← isLeft]
            exact all (calls + 1)
          rw [← isPart] at more
          refine ⟨part chars :: parts, .step moved progress isPart ?_ isPosition more, ?_⟩
          · rw [isPart]
            exact isShort
          · rw [List.flatten_cons, isTail]
            exact isText.symm

/-- A text is delivered part by part exactly when each cut on the way fits. -/
theorem komaSetText_delivered_iff (h : Handle) (chars : List (WideChar 0x30)) :
    (∃ parts, Delivers 0 (komaSetText h (text chars)) parts ∧ parts.flatten = chars) ↔
      ∀ calls, left calls chars ≠ [] → CutFits (left calls chars) :=
  delivers_iff (.inl rfl) rfl

theorem findNewline_line {front rest : List UInt8} {rounds place : Nat}
    (ordinary : ∀ byte ∈ front, byte ≠ 0 ∧ byte ≠ 10) (before : place ≤ front.length)
    (inside : front.length < place + rounds) :
    findNewline (front ++ 10 :: rest) rounds place = some (front.length + 1) := by
  induction rounds generalizing place with
  | zero => omega
  | succ rounds ih =>
    rw [findNewline]
    rcases Nat.eq_or_lt_of_le before with atEnd | atByte
    · have isLine := byteAt_append front 10 rest
      rw [atEnd, isLine, if_neg (by decide), if_pos rfl]
    · have isByte : byteAt (front ++ 10 :: rest) place = front[place] := by
        rw [byteAt, List.getD_eq_getElem?_getD, List.getElem?_append_left atByte,
          List.getElem?_eq_getElem atByte]
        rfl
      obtain ⟨notEnd, notLine⟩ := ordinary front[place] (List.getElem_mem atByte)
      rw [isByte, if_neg notEnd, if_neg notLine]
      exact ih atByte (by omega)

def letter : WideChar 0x30 := .single 97 (by decide) (by decide)

def lineEnd : WideChar 0x30 := .single 10 (by decide) (by decide)

def longLine : List (WideChar 0x30) := List.replicate (maxSentenceLength - 1) letter ++ [lineEnd]

theorem text_replicate_letter (count : Nat) :
    text (List.replicate count letter) = List.replicate count 97 := by
  induction count with
  | zero => rfl
  | succ count ih =>
    rw [List.replicate_succ, text_cons, ih]
    rfl

theorem cutPlace_longLine : cutPlace (text longLine) = maxSentenceLength := by
  have isText : text longLine = List.replicate (maxSentenceLength - 1) 97 ++ 10 :: [] := by
    rw [longLine, text_append, text_replicate_letter]
    rfl
  have ordinary : ∀ byte ∈ List.replicate (maxSentenceLength - 1) (97 : UInt8),
      byte ≠ 0 ∧ byte ≠ 10 := by
    intro byte isIn
    rw [List.eq_of_mem_replicate isIn]
    decide
  have isLine := @findNewline_line _ [] maxSentenceLength 0 ordinary (Nat.zero_le _)
    (by rw [List.length_replicate, maxSentenceLength]; omega)
  rw [List.length_replicate] at isLine
  rw [cutPlace, isText, isLine]
  rfl

theorem longLine_not_cutFits : ¬ CutFits longLine := by
  rintro (before | ⟨_, front, char, rest, isLine, isWide, _⟩)
  · rw [cutPlace_longLine] at before
    exact Nat.lt_irrefl _ before
  · have isIn : char ∈ longLine := by
      rw [isLine]
      exact List.mem_append_right _ List.mem_cons_self
    rw [longLine, List.mem_append, List.mem_singleton] at isIn
    rcases isIn with isLetter | rfl
    · rw [List.eq_of_mem_replicate isLetter] at isWide
      cases isWide
    · cases isWide

theorem longLine_not_delivered :
    ¬ ∃ parts, Delivers 0 (komaSetText ⟨[], 0, 0, none, 0, 0, 0⟩ (text longLine)) parts ∧
      parts.flatten = longLine := by
  intro delivered
  have notEmpty : left 0 longLine ≠ [] :=
    List.append_ne_nil_of_right_ne_nil _ (List.cons_ne_nil _ _)
  have isIff := @delivers_iff longLine (komaSetText ⟨[], 0, 0, none, 0, 0, 0⟩ (text longLine)) 0
    (.inl rfl) rfl
  exact longLine_not_cutFits (isIff.mp delivered 0 notEmpty)

end Wisebot.Extractor.Sentences
