import Mathlib.Algebra.Order.Ring.Nat
import Mathlib.Data.List.Basic

namespace Wisebot.Qp.StartComment

/-! `get_start_comment_utf8` of `mod_qp/mod_qp2.c`. A text is its bytes before the NUL. -/

/-- `IS_WHITE` -/
def isWhite (ch : UInt8) : Bool := ch = 32 || ch = 9 || ch = 13 || ch = 10

/-- `check_bom` -/
def checkBom (header : List UInt8) : Bool := header.take 3 = [0xef, 0xbb, 0xbf]

/-- The inner loop, which leads to the next character, or to the end of the text. -/
def skipWhite : (bytePos : Nat) → List UInt8 → Option (Nat × List UInt8)
  | _, [] => none
  | bytePos, ch :: rest =>
    if isWhite ch then skipWhite (bytePos + 1) rest else some (bytePos, ch :: rest)

/-- The loop over the text from `p` on; `none` is a read behind the NUL. -/
def scan (startWordPos : Nat) : (rounds wordPos bytePos : Nat) → List UInt8 → Option Nat
  | 0, _, _, _ => none
  | _ + 1, wordPos, bytePos, [] => if wordPos = startWordPos then some (bytePos + 1) else none
  | rounds + 1, wordPos, bytePos, ch :: rest =>
    if isWhite ch then
      match skipWhite (bytePos + 1) rest with
      | none => some 0
      | some (bytePos, rest) =>
        if wordPos + 1 = startWordPos then some bytePos
        else scan startWordPos rounds (wordPos + 1) bytePos rest
    else if wordPos = startWordPos then some (bytePos + 1)
    else if rest = [] then some 0
    else scan startWordPos rounds wordPos (bytePos + 1) rest

def getStartCommentUtf8 (txt : List UInt8) (startWordPos : Int) : Option Nat :=
  if startWordPos ≤ 0 then some 0
  else
    let p := if checkBom txt then txt.drop 3 else txt
    scan startWordPos.toNat (p.length + 1) 1 0 p

def wordStarts : (place : Nat) → (afterWord : Bool) → List UInt8 → List Nat
  | _, _, [] => []
  | place, afterWord, ch :: rest =>
    if isWhite ch then wordStarts (place + 1) false rest
    else if afterWord then wordStarts (place + 1) true rest
    else place :: wordStarts (place + 1) true rest

/-- The text behind a byte order mark. -/
def body (txt : List UInt8) : List UInt8 := if checkBom txt then txt.drop 3 else txt

def words (txt : List UInt8) : List Nat :=
  wordStarts (if checkBom txt then 3 else 0) false (body txt)

theorem wordStarts_add (place shift : Nat) (afterWord : Bool) (rest : List UInt8) :
    wordStarts (place + shift) afterWord rest =
      (wordStarts place afterWord rest).map (· + shift) := by
  induction rest generalizing place afterWord with
  | nil => rfl
  | cons ch rest ih =>
    simp only [wordStarts]
    have isNext : ∀ after, wordStarts (place + shift + 1) after rest =
        (wordStarts (place + 1) after rest).map (· + shift) := by
      intro after
      rw [← ih, Nat.add_right_comm]
    split
    · exact isNext false
    · split
      · exact isNext true
      · rw [isNext, List.map_cons]

theorem skipWhite_spec (bytePos : Nat) (rest : List UInt8) :
    (skipWhite bytePos rest = none ∧ wordStarts bytePos false rest = []) ∨
      ∃ place ch more, skipWhite bytePos rest = some (place, ch :: more) ∧ isWhite ch = false ∧
        bytePos ≤ place ∧ more.length < rest.length ∧
        wordStarts bytePos false rest = place :: wordStarts (place + 1) true more := by
  induction rest generalizing bytePos with
  | nil => exact .inl ⟨rfl, rfl⟩
  | cons ch rest ih =>
    rcases Bool.eq_false_or_eq_true (isWhite ch) with white | solid
    · simp only [skipWhite, wordStarts, white, if_true]
      rcases ih (bytePos + 1) with
        isEnd | ⟨place, next, more, skipped, solid, later, shorter, isWord⟩
      · exact .inl isEnd
      · exact .inr ⟨place, next, more, skipped, solid, by omega, by rw [List.length_cons]; omega,
          isWord⟩
    · refine .inr ⟨bytePos, ch, rest, ?_, solid, le_refl _, Nat.lt_succ_self _, ?_⟩
      · rw [skipWhite, solid]
        rfl
      · rw [wordStarts, solid]
        rfl

theorem scan_white (startWordPos : Nat) {rounds wordPos bytePos : Nat} {ch : UInt8}
    {rest : List UInt8} (white : isWhite ch = true) (different : wordPos + 1 ≠ startWordPos) :
    (scan startWordPos (rounds + 1) wordPos bytePos (ch :: rest) = some 0 ∧
        wordStarts (bytePos + 1) false rest = []) ∨
      ∃ place next more, isWhite next = false ∧ more.length < rest.length ∧
        scan startWordPos (rounds + 1) wordPos bytePos (ch :: rest) =
          scan startWordPos rounds (wordPos + 1) place (next :: more) ∧
        wordStarts (bytePos + 1) false rest = place :: wordStarts (place + 1) true more := by
  rcases skipWhite_spec (bytePos + 1) rest with
    ⟨skipped, noWord⟩ | ⟨place, next, more, skipped, solid, _, shorter, isWord⟩
  · refine .inl ⟨?_, noWord⟩
    rw [scan, if_pos white, skipped]
  · refine .inr ⟨place, next, more, solid, shorter, ?_, isWord⟩
    rw [scan, if_pos white, skipped]
    exact if_neg different

/-- In a word, when a later one is asked for: its place, or 0 if there is none. -/
theorem scan_before (startWordPos : Nat) {rounds wordPos bytePos : Nat} {ch : UInt8}
    {rest : List UInt8} (solid : isWhite ch = false) (before : wordPos < startWordPos)
    (enough : rest.length + 1 < rounds) :
    scan startWordPos rounds wordPos bytePos (ch :: rest) =
      some (((wordStarts (bytePos + 1) true rest)[startWordPos - wordPos - 1]?).getD 0) := by
  induction rounds using Nat.strongRecOn generalizing wordPos bytePos ch rest with
  | ind rounds ih =>
    obtain ⟨rounds, rfl⟩ := Nat.exists_eq_succ_of_ne_zero (Nat.ne_zero_of_lt enough)
    rw [scan, solid, if_neg Bool.false_ne_true, if_neg (Nat.ne_of_lt before)]
    cases rest with
    | nil => rfl
    | cons next rest =>
      rw [List.length_cons] at enough
      rw [if_neg (List.cons_ne_nil _ _)]
      rcases Bool.eq_false_or_eq_true (isWhite next) with white | solid'
      · obtain ⟨rounds, rfl⟩ := Nat.exists_eq_succ_of_ne_zero
          (Nat.ne_zero_of_lt (Nat.lt_of_succ_lt_succ enough))
        rw [wordStarts, if_pos white]
        by_cases isWanted : wordPos + 1 = startWordPos
        · rw [scan, if_pos white, show startWordPos - wordPos - 1 = 0 by omega]
          rcases skipWhite_spec (bytePos + 1 + 1) rest with
            ⟨skipped, noWord⟩ | ⟨place, found, more, skipped, _, _, _, isWord⟩
          · rw [skipped, noWord]
            rfl
          · rw [skipped, isWord]
            exact if_pos isWanted
        · rcases scan_white startWordPos white isWanted with
            ⟨ended, noWord⟩ | ⟨place, found, more, solid', shorter, goesOn, isWord⟩
          · rw [ended, noWord]
            rfl
          · rw [goesOn, isWord, ih rounds (by omega) solid' (by omega) (by omega),
              show startWordPos - wordPos - 1 = startWordPos - (wordPos + 1) - 1 + 1 by omega,
              List.getElem?_cons_succ]
      · rw [ih rounds (Nat.lt_succ_self _) solid' before (by omega), wordStarts, solid']
        rfl

theorem scan_behind (startWordPos : Nat) {rounds wordPos bytePos : Nat} {ch : UInt8}
    {rest : List UInt8} (behind : startWordPos < wordPos) (enough : rest.length + 1 < rounds) :
    scan startWordPos rounds wordPos bytePos (ch :: rest) = some 0 := by
  induction rounds generalizing wordPos bytePos ch rest with
  | zero => exact absurd enough (Nat.not_lt_zero _)
  | succ rounds ih =>
    have different : wordPos + 1 ≠ startWordPos := by omega
    rcases Bool.eq_false_or_eq_true (isWhite ch) with white | solid
    · rcases scan_white startWordPos white different with
        ⟨ended, _⟩ | ⟨place, found, more, _, shorter, goesOn, _⟩
      · exact ended
      · rw [goesOn]
        exact ih (by omega) (by omega)
    · rw [scan, solid, if_neg Bool.false_ne_true, if_neg (Nat.ne_of_gt behind)]
      cases rest with
      | nil => rfl
      | cons next rest =>
        rw [List.length_cons] at enough
        rw [if_neg (List.cons_ne_nil _ _)]
        exact ih behind (by omega)

def LeadsWhite (p : List UInt8) : Prop := ∃ ch rest, p = ch :: rest ∧ isWhite ch = true

theorem scan_leadsWhite {p : List UInt8} (leads : LeadsWhite p) {startWordPos : Nat}
    (positive : 0 < startWordPos) :
    scan startWordPos (p.length + 1) 1 0 p =
      some (if startWordPos = 1 then 0
        else ((wordStarts 0 false p)[startWordPos - 2]?).getD 0) := by
  obtain ⟨ch, rest, rfl, white⟩ := leads
  rw [wordStarts, if_pos white]
  by_cases isSecond : 2 = startWordPos
  · subst isSecond
    rw [scan, if_pos white]
    rcases skipWhite_spec (0 + 1) rest with
      ⟨skipped, noWord⟩ | ⟨place, found, more, skipped, _, _, _, isWord⟩
    · rw [skipped, noWord]
      rfl
    · rw [skipped, isWord]
      rfl
  · rcases scan_white startWordPos white isSecond with
      ⟨ended, noWord⟩ | ⟨place, found, more, solid, shorter, goesOn, isWord⟩
    · rw [ended, noWord]
      split <;> rfl
    · rw [goesOn, isWord, List.length_cons]
      by_cases isFirst : startWordPos = 1
      · rw [if_pos isFirst]
        exact scan_behind startWordPos (by omega) (by omega)
      · rw [if_neg isFirst, scan_before startWordPos solid (by omega) (by omega),
          show startWordPos - 2 = startWordPos - 2 - 1 + 1 by omega, List.getElem?_cons_succ]
        rfl

theorem scan_leadsWord {p : List UInt8} (notEmpty : p ≠ []) (leads : ¬ LeadsWhite p)
    {startWordPos : Nat} (positive : 0 < startWordPos) :
    scan startWordPos (p.length + 1) 1 0 p =
      some (if startWordPos = 1 then 1
        else ((wordStarts 0 false p)[startWordPos - 1]?).getD 0) := by
  obtain ⟨ch, rest, rfl⟩ := List.exists_cons_of_ne_nil notEmpty
  have solid : isWhite ch = false :=
    Bool.eq_false_iff.mpr fun white => leads ⟨ch, rest, rfl, white⟩
  by_cases isFirst : startWordPos = 1
  · subst isFirst
    rw [scan, solid]
    rfl
  · have enough : rest.length + 1 < (ch :: rest).length + 1 := Nat.lt_succ_self _
    rw [if_neg isFirst, scan_before startWordPos solid (by omega) enough, wordStarts, solid,
      show startWordPos - 1 = startWordPos - 1 - 1 + 1 by omega]
    rfl

theorem wordStarts_increases (place : Nat) (afterWord : Bool) (rest : List UInt8) :
    (wordStarts place afterWord rest).Pairwise (· < ·) ∧
      ∀ word ∈ wordStarts place afterWord rest, place ≤ word := by
  induction rest generalizing place afterWord with
  | nil => exact ⟨List.Pairwise.nil, fun word never => by cases never⟩
  | cons ch rest ih =>
    have later : ∀ after, ∀ word ∈ wordStarts (place + 1) after rest, place < word :=
      fun after word within => (ih (place + 1) after).2 word within
    rw [wordStarts]
    split
    · exact ⟨(ih _ _).1, fun word within => (later false word within).le⟩
    · split
      · exact ⟨(ih _ _).1, fun word within => (later true word within).le⟩
      · refine ⟨List.pairwise_cons.mpr ⟨later true, (ih _ _).1⟩, ?_⟩
        intro word within
        rcases List.mem_cons.mp within with rfl | isLater
        · exact le_refl _
        · exact (later true word isLater).le

/-- The word that is asked for is the first one behind white space, or none; or it is
a later one in a text without a byte order mark, or none. -/
def Finds (txt : List UInt8) (startWordPos : Nat) : Prop :=
  body txt ≠ [] ∧
    (LeadsWhite (body txt) → startWordPos = 1 ∨ (words txt).length + 1 < startWordPos) ∧
    (¬ LeadsWhite (body txt) →
      2 ≤ startWordPos ∧ (checkBom txt = true → (words txt).length < startWordPos))

/-- The place behind a byte order mark. -/
def bomLength (txt : List UInt8) : Nat := if checkBom txt then 3 else 0

theorem words_eq (txt : List UInt8) :
    words txt = (wordStarts 0 false (body txt)).map (· + bomLength txt) := by
  rw [words, ← wordStarts_add, Nat.zero_add]
  rfl

/-- A word does not begin where one of the words before it does, even if the byte order mark
is not counted. -/
theorem later_word {txt : List UInt8} {index word : Nat}
    (isWord : (wordStarts 0 false (body txt))[index]? = some word) :
    (words txt)[index + 1]? ≠ some word := by
  intro isNext
  rw [words_eq, List.getElem?_map] at isNext
  obtain ⟨next, isStart, isPlace⟩ := Option.map_eq_some_iff.mp isNext
  obtain ⟨inside, rfl⟩ := List.getElem?_eq_some_iff.mp isWord
  obtain ⟨inside', rfl⟩ := List.getElem?_eq_some_iff.mp isStart
  have increases := List.pairwise_iff_getElem.mp (wordStarts_increases 0 false (body txt)).1
    index (index + 1) inside inside' (Nat.lt_succ_self index)
  omega

theorem finds_leadsWhite {txt : List UInt8} (leads : LeadsWhite (body txt)) {wanted : Nat}
    (positive : 0 < wanted) (found : Nat)
    (isFound : found = if wanted = 1 then 0
      else ((wordStarts 0 false (body txt))[wanted - 2]?).getD 0) :
    found = 0 ∨ (words txt)[wanted - 1]? = some found ↔
      wanted = 1 ∨ (words txt).length + 1 < wanted := by
  have sameLength : (words txt).length = (wordStarts 0 false (body txt)).length := by
    rw [words_eq, List.length_map]
  by_cases isFirst : wanted = 1
  · rw [if_pos isFirst] at isFound
    exact iff_of_true (.inl isFound) (.inl isFirst)
  · rw [if_neg isFirst] at isFound
    rw [sameLength]
    cases isWord : (wordStarts 0 false (body txt))[wanted - 2]? with
    | none =>
      have short := List.getElem?_eq_none_iff.mp isWord
      rw [isWord] at isFound
      exact iff_of_true (.inl isFound) (.inr (by omega))
    | some word =>
      obtain ⟨inside, isStart⟩ := List.getElem?_eq_some_iff.mp isWord
      rw [isWord] at isFound
      obtain rfl : found = word := isFound
      refine iff_of_false ?_ (by omega)
      rintro (isZero | isNext)
      · obtain ⟨ch, rest, isText, white⟩ := leads
        have within := List.mem_of_getElem? isWord
        rw [isText, wordStarts, if_pos white] at within
        have positive := (wordStarts_increases _ _ _).2 _ within
        omega
      · rw [show wanted - 1 = wanted - 2 + 1 by omega] at isNext
        exact later_word isWord isNext

theorem finds_leadsWord {txt : List UInt8} (notEmpty : body txt ≠ [])
    (leads : ¬ LeadsWhite (body txt)) {wanted : Nat} (positive : 0 < wanted) (found : Nat)
    (isFound : found = if wanted = 1 then 1
      else ((wordStarts 0 false (body txt))[wanted - 1]?).getD 0) :
    found = 0 ∨ (words txt)[wanted - 1]? = some found ↔
      2 ≤ wanted ∧ (checkBom txt = true → (words txt).length < wanted) := by
  have sameLength : (words txt).length = (wordStarts 0 false (body txt)).length := by
    rw [words_eq, List.length_map]
  obtain ⟨ch, rest, isText⟩ := List.exists_cons_of_ne_nil notEmpty
  have solid : isWhite ch = false :=
    Bool.eq_false_iff.mpr fun white => leads ⟨ch, rest, isText, white⟩
  have isStart : wordStarts 0 false (body txt) = 0 :: wordStarts 1 true rest := by
    rw [isText, wordStarts, solid]
    rfl
  by_cases isFirst : wanted = 1
  · rw [if_pos isFirst] at isFound
    subst isFirst isFound
    refine iff_of_false ?_ fun never => absurd never.1 (by decide)
    rintro (never | isWord)
    · exact absurd never (by decide)
    · rw [words_eq, isStart, List.map_cons, Nat.sub_self, List.getElem?_cons_zero,
        bomLength] at isWord
      split at isWord <;> cases isWord
  · rw [if_neg isFirst] at isFound
    cases isWord : (wordStarts 0 false (body txt))[wanted - 1]? with
    | none =>
      have short := List.getElem?_eq_none_iff.mp isWord
      rw [isWord] at isFound
      exact iff_of_true (.inl isFound) ⟨by omega, fun _ => by rw [sameLength]; omega⟩
    | some word =>
      obtain ⟨inside, -⟩ := List.getElem?_eq_some_iff.mp isWord
      rw [isWord] at isFound
      obtain rfl : found = word := isFound
      have notZero : found ≠ 0 := by
        rw [isStart, show wanted - 1 = wanted - 2 + 1 by omega, List.getElem?_cons_succ] at isWord
        have later := (wordStarts_increases 1 true rest).2 _ (List.mem_of_getElem? isWord)
        omega
      rw [or_iff_right notZero, words_eq, List.getElem?_map, isWord, Option.map_some,
        ← words_eq, sameLength, bomLength, Option.some_inj]
      cases checkBom txt with
      | false => exact iff_of_true rfl ⟨by omega, fun never => by cases never⟩
      | true =>
        refine iff_of_false (fun never => ?_) fun never => ?_
        · have isShift : found + 3 = found := never
          omega
        · have short := never.2 rfl
          omega

/-- What is returned is 0 or the place of the word that is asked for, exactly when the
position is not positive or the word is found where it begins. -/
theorem getStartComment_iff (txt : List UInt8) (startWordPos : Int) :
    (∃ place, getStartCommentUtf8 txt startWordPos = some place ∧
      (place = 0 ∨ (words txt)[startWordPos.toNat - 1]? = some place)) ↔
      startWordPos ≤ 0 ∨ Finds txt startWordPos.toNat := by
  rw [getStartCommentUtf8]
  by_cases notPositive : startWordPos ≤ 0
  · rw [if_pos notPositive]
    exact iff_of_true ⟨0, rfl, .inl rfl⟩ (.inl notPositive)
  · have positive : 0 < startWordPos.toNat := by omega
    have isEither : startWordPos ≤ 0 ∨ Finds txt startWordPos.toNat ↔
        Finds txt startWordPos.toNat := or_iff_right notPositive
    rw [if_neg notPositive, isEither]
    generalize startWordPos.toNat = wanted at positive ⊢
    change (∃ place, scan wanted ((body txt).length + 1) 1 0 (body txt) = some place ∧ _) ↔ _
    rw [Finds]
    by_cases isEmpty : body txt = []
    · refine iff_of_false ?_ fun finds => finds.1 isEmpty
      rintro ⟨place, isPlace, isWord⟩
      rw [words_eq] at isWord
      rw [isEmpty] at isPlace isWord
      rw [scan] at isPlace
      split at isPlace
      · cases isPlace
        rcases isWord with never | never <;> cases never
      · cases isPlace
    · by_cases leads : LeadsWhite (body txt)
      · have isFound := finds_leadsWhite leads positive _ rfl
        rw [scan_leadsWhite leads positive]
        constructor
        · rintro ⟨place, isPlace, isWord⟩
          obtain rfl := Option.some.inj isPlace
          exact ⟨isEmpty, fun _ => isFound.mp isWord, fun never => absurd leads never⟩
        · rintro ⟨_, isWanted, _⟩
          exact ⟨_, rfl, isFound.mpr (isWanted leads)⟩
      · have isFound := finds_leadsWord isEmpty leads positive _ rfl
        rw [scan_leadsWord isEmpty leads positive]
        constructor
        · rintro ⟨place, isPlace, isWord⟩
          obtain rfl := Option.some.inj isPlace
          exact ⟨isEmpty, fun never => absurd never leads, fun _ => isFound.mp isWord⟩
        · rintro ⟨_, _, isWanted⟩
          exact ⟨_, rfl, isFound.mpr (isWanted leads)⟩

/-- The first word of a text without white space before it, in a character of three bytes;
and the second word behind a byte order mark. -/
theorem getStartComment_notFound :
    (¬ ∃ place, getStartCommentUtf8 [0xea, 0xb0, 0x80] 1 = some place ∧
      (place = 0 ∨ (words [0xea, 0xb0, 0x80])[0]? = some place)) ∧
    ¬ ∃ place, getStartCommentUtf8 [0xef, 0xbb, 0xbf, 97, 32, 98] 2 = some place ∧
      (place = 0 ∨ (words [0xef, 0xbb, 0xbf, 97, 32, 98])[1]? = some place) := by
  have first : getStartCommentUtf8 [0xea, 0xb0, 0x80] 1 = some 1 := by decide
  have second : getStartCommentUtf8 [0xef, 0xbb, 0xbf, 97, 32, 98] 2 = some 2 := by decide
  constructor
  · rintro ⟨place, isPlace, isWord⟩
    rw [first] at isPlace
    cases isPlace
    exact absurd isWord (by decide)
  · rintro ⟨place, isPlace, isWord⟩
    rw [second] at isPlace
    cases isPlace
    exact absurd isWord (by decide)

end Wisebot.Qp.StartComment
