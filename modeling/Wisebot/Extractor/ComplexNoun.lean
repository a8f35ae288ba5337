import Mathlib.Algebra.Ring.Nat
import Mathlib.Data.List.Chain
import Wisebot.Lib.Draining

namespace Wisebot.Extractor

open Wisebot.Lib

/-! Compound nouns out of the words of each eojeol:
`mod_koma_complex_noun_support.c`. A `none` result is a write outside of `index_word` or
`tmp_words`. -/

def maxWordLen : Nat := 40

/-- The parts of `index_word_t` that are copied here; a word is its bytes before the
terminator. -/
structure IndexWord where
  word : List UInt8
  pos : Nat
  field : Nat
  len : Nat
  attr : UInt32
deriving DecidableEq, Repr

/-- `strnhcpy` with `copied` bytes copied so far, which takes one character in any case
and then each whose predecessor would still have had room. -/
def strnhcpy (len : Nat) : (copied : Nat) → List UInt8 → List UInt8
  | _, [] => []
  | _, [only] => [only]
  | copied, first :: second :: rest =>
    if 0x80 ≤ first ∧ 0x30 ≤ second then
      first :: second :: if copied + 4 ≤ len then strnhcpy len (copied + 2) rest else []
    else
      first :: if copied + 2 ≤ len then strnhcpy len (copied + 1) (second :: rest) else []

namespace ComplexNoun

/-- `MY_EXTRACTOR_ID1` and `MY_EXTRACTOR_ID2` -/
inductive ExtractorId
  | id1
  | id2
deriving DecidableEq, Repr

def komaIndexWordSize : Nat := 1024

def tmpIndexWordSize : Nat := 100

/-- `"NNCC"` in the bytes of an `uint32_t` -/
def nncc : UInt32 := 0x43434E4E

/-- `koma_complex_noun_support_t`. The words that are filled of each array stand for its
size; behind them `tmp_words` is zero. What `koma` has still to answer is the list of its
batches. -/
structure Handle where
  id : ExtractorId
  koma : List (List IndexWord)
  komaWords : List IndexWord
  komaIdx : Nat
  tmpWords : List IndexWord
  tmpIdx : Nat
  endOfText : Bool

def mergeNoun (src1 : IndexWord) : Option IndexWord → Option IndexWord
  | none =>
    some { src1 with
      word := src1.word.take (maxWordLen - 1)
      len := (src1.word.take (maxWordLen - 1)).length }
  | some src2 =>
    if src1.pos ≠ src2.pos then none
    else
      let cut := src1.word.take (maxWordLen - 1)
      let word := cut ++ src2.word.take (maxWordLen - cut.length - 1)
      some { word, pos := src1.pos, field := src1.field, len := word.length, attr := nncc }

def mergePairs : List IndexWord → List IndexWord
  | first :: second :: rest =>
    (mergeNoun first (some second)).toList ++ mergePairs (second :: rest)
  | _ => []

def mergeTriples : List IndexWord → List IndexWord
  | first :: second :: third :: rest =>
    ((mergeNoun first (some second)).bind fun w => mergeNoun w (some third)).toList ++
      mergeTriples (second :: third :: rest)
  | _ => []

/-- The compounds that are appended to `tmp_words`. -/
def compounds (tmpWords : List IndexWord) : List IndexWord :=
  if tmpWords.length = 1 then []
  else if tmpWords.length = 2 then mergePairs tmpWords
  else mergePairs tmpWords ++ mergeTriples tmpWords

def Handle.clearTmp (h : Handle) : Handle := { h with tmpWords := [], tmpIdx := 0 }

/-- What is written to `index_word`, whose end no test looks at. -/
def takeTmpWords12 (h : Handle) (maxIndexWord : Nat) : Option (List IndexWord × Handle) :=
  if maxIndexWord = 0 ∨ h.tmpWords.length = 0 then some ([], h)
  else
    let written :=
      if h.tmpWords.length = 1 then h.tmpWords.filterMap fun word => mergeNoun word none
      else if h.tmpWords.length = 2 then mergePairs h.tmpWords
      else mergeTriples h.tmpWords
    if written.length ≤ maxIndexWord then some (written, h.clearTmp) else none

def takeTmpWords (h : Handle) (maxIndexWord : Nat) : Option (List IndexWord × Handle) :=
  match h.id with
  | .id2 => takeTmpWords12 h maxIndexWord
  | .id1 =>
    if maxIndexWord = 0 ∨ h.tmpWords.length = 0 then some ([], h)
    else
      let tmpWords :=
        if h.tmpIdx = 0 then h.tmpWords ++ compounds h.tmpWords else h.tmpWords
      if tmpWords.length ≤ tmpIndexWordSize then
        some (((tmpWords.drop h.tmpIdx).filterMap fun word => mergeNoun word none).take
          maxIndexWord, h.clearTmp)
      else none

def putTmpWords (h : Handle) (indexWord : IndexWord) : Handle :=
  if 30 < h.tmpWords.length then h
  else
    { h with
      tmpWords := h.tmpWords ++
        [⟨strnhcpy (maxWordLen - 1) 0 indexWord.word, indexWord.pos, 0, 0, indexWord.attr⟩] }

/-- `tmp_words[0].pos` -/
def Handle.firstPos (h : Handle) : Nat := (h.tmpWords.head?.map IndexWord.pos).getD 0

def Handle.advance (h : Handle) : Handle := { h with komaIdx := h.komaIdx + 1 }

/-- The loop over the words of `koma` and what is done behind it; `count` words have been
written before. -/
def analyzeLoop (maxIndexWord : Nat) :
    List IndexWord → (count : Nat) → Handle → Option (List IndexWord × Handle)
  | [], count, h =>
    (takeTmpWords h (maxIndexWord - count)).map fun taken =>
      (taken.1, { taken.2 with komaWords := [] })
  | word :: rest, count, h =>
    if h.firstPos ≠ word.pos then
      (takeTmpWords h (maxIndexWord - count)).bind fun taken =>
        if count + taken.1.length = maxIndexWord then some taken
        else
          (analyzeLoop maxIndexWord rest (count + taken.1.length)
            (putTmpWords taken.2 word).advance).map fun others =>
              (taken.1 ++ others.1, others.2)
    else analyzeLoop maxIndexWord rest count (putTmpWords h word).advance

/-- `cn_analyze` from where the words of `koma` are looked at, with what has been written
to `index_word` before. -/
def analyzeKoma (maxIndexWord : Nat) (written : List IndexWord) (h : Handle) :
    Option (List IndexWord × Handle) :=
  if h.endOfText then some ([], h)
  else if h.komaWords.length = 0 then
    match h.koma with
    | [] | [] :: _ =>
      some ([], { h with koma := h.koma.tail, endOfText := true, komaIdx := 0, komaWords := [] })
    | batch :: batches =>
      (analyzeLoop maxIndexWord batch written.length
        { h with koma := batches, komaIdx := 0, komaWords := batch }).map fun others =>
          (written ++ others.1, others.2)
  else
    (analyzeLoop maxIndexWord (h.komaWords.drop h.komaIdx) written.length h).map fun others =>
      (written ++ others.1, others.2)

def cnAnalyze (maxIndexWord : Nat) (h : Handle) : Option (List IndexWord × Handle) :=
  if 0 < h.tmpWords.length then
    (takeTmpWords h maxIndexWord).bind fun taken =>
      if taken.1.length = maxIndexWord then some taken
      else analyzeKoma maxIndexWord taken.1 taken.2
  else analyzeKoma maxIndexWord [] h

/-- `new_cn_analyzer` and `cn_set_text` -/
def setText (id : ExtractorId) (koma : List (List IndexWord)) : Handle :=
  ⟨id, koma, [], 0, [], 0, false⟩

/-- A word that `koma` has found. -/
structure Morpheme where
  word : List UInt8
  field : Nat
  len : Nat
  attr : UInt32
  short : word.length < maxWordLen
  string : 0 ∉ word

structure Eojeol where
  pos : Nat
  morphemes : List Morpheme
  positive : 1 ≤ pos
  notEmpty : morphemes ≠ []
  atMost : morphemes.length ≤ 31

def Morpheme.indexWord (pos : Nat) (morpheme : Morpheme) : IndexWord :=
  ⟨morpheme.word, pos, morpheme.field, morpheme.len, morpheme.attr⟩

def Eojeol.indexWords (eojeol : Eojeol) : List IndexWord :=
  eojeol.morphemes.map (Morpheme.indexWord eojeol.pos)

/-- What one call of `koma_analyze` answers. -/
structure Batch where
  eojeols : List Eojeol
  notEmpty : eojeols ≠ []
  apart : eojeols.IsChain fun first second => first.pos ≠ second.pos
  size : (eojeols.flatMap Eojeol.indexWords).length ≤ komaIndexWordSize

def Batch.indexWords (batch : Batch) : List IndexWord := batch.eojeols.flatMap Eojeol.indexWords

section Groups

variable {α β : Type}

def pairs : List α → List (List α)
  | first :: second :: rest => [first, second] :: pairs (second :: rest)
  | _ => []

def triples : List α → List (List α)
  | first :: second :: third :: rest =>
    [first, second, third] :: triples (second :: third :: rest)
  | _ => []

def groups (id : ExtractorId) (words : List α) : List (List α) :=
  match id with
  | .id1 => words.map (fun word => [word]) ++ (pairs words ++ triples words)
  | .id2 => if words.length < 3 then [words] else triples words

def outputs (id : ExtractorId) (count : Nat) : Nat :=
  match id with
  | .id1 => count + ((count - 1) + (count - 2))
  | .id2 => if count < 3 then 1 else count - 2

theorem pairs_map (f : α → β) (words : List α) :
    pairs (words.map f) = (pairs words).map (List.map f) := by
  fun_induction pairs words with
  | case1 first second rest ih => exact congrArg (List.cons _) ih
  | case2 words short =>
    rcases words with _ | ⟨first, _ | ⟨second, rest⟩⟩
    · rfl
    · rfl
    · exact absurd rfl (short first second rest)

theorem triples_map (f : α → β) (words : List α) :
    triples (words.map f) = (triples words).map (List.map f) := by
  fun_induction triples words with
  | case1 first second third rest ih => exact congrArg (List.cons _) ih
  | case2 words short =>
    rcases words with _ | ⟨first, _ | ⟨second, _ | ⟨third, rest⟩⟩⟩
    · rfl
    · rfl
    · rfl
    · exact absurd rfl (short first second third rest)

theorem groups_map (id : ExtractorId) (f : α → β) (words : List α) :
    groups id (words.map f) = (groups id words).map (List.map f) := by
  cases id with
  | id1 =>
    simp only [groups, pairs_map, triples_map, List.map_append, List.map_map]
    rfl
  | id2 =>
    simp only [groups, triples_map, List.length_map]
    split
    · rfl
    · rfl

theorem length_pairs (words : List α) : (pairs words).length = words.length - 1 := by
  fun_induction pairs words with
  | case1 first second rest ih =>
    simp only [List.length_cons] at ih ⊢
    omega
  | case2 words short =>
    rcases words with _ | ⟨first, _ | ⟨second, rest⟩⟩
    · rfl
    · rfl
    · exact absurd rfl (short first second rest)

theorem length_triples (words : List α) : (triples words).length = words.length - 2 := by
  fun_induction triples words with
  | case1 first second third rest ih =>
    simp only [List.length_cons] at ih ⊢
    omega
  | case2 words short =>
    rcases words with _ | ⟨first, _ | ⟨second, _ | ⟨third, rest⟩⟩⟩
    · rfl
    · rfl
    · rfl
    · exact absurd rfl (short first second third rest)

theorem length_groups (id : ExtractorId) (words : List α) :
    (groups id words).length = outputs id words.length := by
  cases id with
  | id1 => simp only [groups, outputs, List.length_append, List.length_map, length_pairs,
      length_triples]
  | id2 =>
    simp only [groups, outputs]
    split
    · rfl
    · exact length_triples words

theorem outputs_pos (id : ExtractorId) {count : Nat} (positive : 0 < count) :
    0 < outputs id count := by
  cases id with
  | id1 => exact Nat.lt_of_lt_of_le positive (Nat.le_add_right _ _)
  | id2 =>
    rw [outputs]
    split
    · exact Nat.one_pos
    · omega

end Groups

/-- Words that are joined are cut to the bytes of one word. -/
def cut (words : List (List UInt8)) : List UInt8 := words.flatten.take (maxWordLen - 1)

def Eojeol.words (eojeol : Eojeol) : List (List UInt8) := eojeol.morphemes.map Morpheme.word

def Eojeol.yields (id : ExtractorId) (eojeol : Eojeol) : List (Nat × List UInt8) :=
  (groups id eojeol.words).map fun group => (eojeol.pos, cut group)

def place (indexWord : IndexWord) : Nat × List UInt8 := (indexWord.pos, indexWord.word)

theorem strnhcpy_eq_or (len copied : Nat) (word : List UInt8) (short : copied + word.length ≤ len) :
    strnhcpy len copied word = word ∨
      copied + word.length = len ∧ strnhcpy len copied word = word.dropLast := by
  fun_induction strnhcpy len copied word with
  | case1 => exact .inl rfl
  | case2 => exact .inl rfl
  | case3 copied first second rest wide ih =>
    simp only [List.length_cons] at short ⊢
    split
    case isTrue room =>
      rcases ih (by omega) with whole | ⟨full, lost⟩
      · exact .inl (by rw [whole])
      · refine .inr ⟨by omega, ?_⟩
        rw [lost]
        rcases rest with _ | ⟨third, rest⟩
        · simp only [List.length_nil] at full
          omega
        · rfl
    case isFalse full =>
      rcases rest with _ | ⟨third, _ | ⟨fourth, rest⟩⟩
      · exact .inl rfl
      · simp only [List.length_cons, List.length_nil] at short ⊢
        exact .inr ⟨by omega, rfl⟩
      · simp only [List.length_cons] at short
        omega
  | case4 copied first second rest narrow ih =>
    simp only [List.length_cons] at short ih ⊢
    have room : copied + 2 ≤ len := by omega
    rw [if_pos room]
    rcases ih (by omega) with whole | ⟨full, lost⟩
    · exact .inl (by rw [whole])
    · refine .inr ⟨by omega, ?_⟩
      rw [lost]
      rfl

/-- What `put_tmp_words` keeps of a word. -/
def kept (word : List UInt8) : List UInt8 := strnhcpy (maxWordLen - 1) 0 word

theorem kept_eq_or {word : List UInt8} (short : word.length < maxWordLen) :
    kept word = word ∨ word.length = maxWordLen - 1 ∧ kept word = word.dropLast := by
  have isShort : 0 + word.length ≤ maxWordLen - 1 := by omega
  rcases strnhcpy_eq_or _ 0 word isShort with whole | ⟨full, lost⟩
  · exact .inl whole
  · exact .inr ⟨by omega, lost⟩

/-- The first word that is not empty is kept whole, or the byte that it loses is the one
that the next word begins with. -/
def Unharmed : List (List UInt8) → Prop
  | [] => True
  | word :: rest =>
    if word = [] then Unharmed rest
    else kept word = word ∨ rest.flatten.head? = word.getLast?

instance decideUnharmed : (words : List (List UInt8)) → Decidable (Unharmed words)
  | [] => inferInstanceAs (Decidable True)
  | word :: rest =>
    have := decideUnharmed rest
    inferInstanceAs (Decidable (if word = [] then Unharmed rest
      else kept word = word ∨ rest.flatten.head? = word.getLast?))

theorem take_flatten_kept {words : List (List UInt8)}
    (short : ∀ word ∈ words, word.length < maxWordLen) :
    (words.map kept).flatten.take (maxWordLen - 2) = words.flatten.take (maxWordLen - 2) := by
  have general : ∀ count ≤ maxWordLen - 2,
      (words.map kept).flatten.take count = words.flatten.take count := by
    induction words with
    | nil => exact fun _ _ => rfl
    | cons word rest ih =>
      intro count few
      have isRest := ih fun other within => short other (List.mem_cons_of_mem _ within)
      rw [List.map_cons, List.flatten_cons, List.flatten_cons]
      rcases kept_eq_or (short word List.mem_cons_self) with whole | ⟨full, lost⟩
      · rw [whole, List.take_append, List.take_append, isRest _ (by omega)]
      · have isLost : word.dropLast.length = maxWordLen - 2 := by
          rw [List.length_dropLast]
          omega
        rw [lost, List.take_append_of_le_length (by omega),
          List.take_append_of_le_length (by omega), List.dropLast_eq_take, List.take_take,
          Nat.min_eq_left (by omega)]
  exact general _ (le_refl _)

theorem dropLast_append_take_iff {word : List UInt8} (notEmpty : word ≠ []) (behind : List UInt8) :
    word.dropLast ++ behind.take 1 = word ↔ behind.head? = word.getLast? := by
  have whole := List.dropLast_append_getLast notEmpty
  rw [List.getLast?_eq_getLast_of_ne_nil notEmpty]
  cases behind with
  | nil =>
    refine iff_of_false (fun same => ?_) (fun never => by cases never)
    have lengths := congrArg List.length same
    have positive := List.length_pos_iff.mpr notEmpty
    rw [List.take_nil, List.append_nil, List.length_dropLast] at lengths
    omega
  | cons byte rest =>
    constructor
    · intro same
      have bytes := List.append_cancel_left (same.trans whole.symm)
      cases bytes
      rfl
    · intro same
      cases same
      exact whole

theorem cut_kept_iff {words : List (List UInt8)}
    (short : ∀ word ∈ words, word.length < maxWordLen) :
    cut (words.map kept) = cut words ↔ Unharmed words := by
  induction words with
  | nil => exact iff_of_true rfl trivial
  | cons word rest ih =>
    have restShort : ∀ other ∈ rest, other.length < maxWordLen :=
      fun other within => short other (List.mem_cons_of_mem _ within)
    rw [Unharmed]
    split
    case isTrue isEmpty =>
      rw [isEmpty]
      exact ih restShort
    case isFalse notEmpty =>
      have agree := take_flatten_kept restShort
      have positive := List.length_pos_iff.mpr notEmpty
      rw [cut, cut, List.map_cons, List.flatten_cons, List.flatten_cons]
      rcases kept_eq_or (short word List.mem_cons_self) with whole | ⟨full, lost⟩
      · refine iff_of_true ?_ (.inl whole)
        have fewer := congrArg (List.take (maxWordLen - 1 - word.length)) agree
        rw [List.take_take, List.take_take, Nat.min_eq_left (by omega)] at fewer
        rw [whole, List.take_append, List.take_append, fewer]
      · have different : kept word ≠ word := by
          intro same
          have lengths := congrArg List.length (lost.symm.trans same)
          rw [List.length_dropLast] at lengths
          omega
        have isHead : (rest.map kept).flatten.head? = rest.flatten.head? := by
          have first := congrArg List.head? agree
          rwa [List.head?_take, List.head?_take, if_neg (by decide), if_neg (by decide)] at first
        have isLast : word.dropLast.length = maxWordLen - 2 := by
          rw [List.length_dropLast]
          omega
        have one : maxWordLen - 1 - word.dropLast.length = 1 := by
          rw [isLast]
          rfl
        rw [or_iff_right different, lost, ← isHead, List.take_append, one,
          List.take_of_length_le (by omega), List.take_append, full, Nat.sub_self, List.take_zero,
          List.append_nil, List.take_of_length_le (Nat.le_of_eq full)]
        exact dropLast_append_take_iff notEmpty _

theorem take_take_append (count : Nat) (front behind : List UInt8) :
    (front.take count ++ behind).take count = (front ++ behind).take count := by
  rw [List.take_append, List.take_append, List.take_take, Nat.min_self, List.length_take]
  congr 2
  omega

theorem mergeNoun_some {first second : IndexWord} (samePos : first.pos = second.pos) :
    ∃ merged, mergeNoun first (some second) = some merged ∧ merged.pos = first.pos ∧
      merged.word = (first.word ++ second.word).take (maxWordLen - 1) := by
  refine ⟨_, if_neg (not_not.mpr samePos), rfl, ?_⟩
  show first.word.take (maxWordLen - 1) ++
    second.word.take (maxWordLen - (first.word.take (maxWordLen - 1)).length - 1) = _
  have isSize : maxWordLen = 40 := rfl
  rw [List.take_append, List.length_take]
  by_cases isLong : maxWordLen - 1 ≤ first.word.length
  · rw [Nat.min_eq_left isLong, Nat.sub_eq_zero_of_le isLong]
    rfl
  · rw [Nat.min_eq_right (by omega), Nat.sub_right_comm]

theorem places_mergePairs {words : List IndexWord} {pos : Nat}
    (samePos : ∀ word ∈ words, word.pos = pos) :
    (mergePairs words).map place =
      (pairs (words.map IndexWord.word)).map fun group => (pos, cut group) := by
  fun_induction mergePairs words with
  | case1 first second rest ih =>
    have isPos := samePos first List.mem_cons_self
    have alsoPos := samePos second (List.mem_cons_of_mem _ List.mem_cons_self)
    obtain ⟨merged, isMerged, mergedPos, mergedWord⟩ := mergeNoun_some (isPos.trans alsoPos.symm)
    have others := ih fun word within => samePos word (List.mem_cons_of_mem _ within)
    rw [isMerged, Option.toList_some, List.map_append, others]
    show (merged.pos, merged.word) :: _ = (pos, cut [first.word, second.word]) :: _
    rw [mergedPos, mergedWord, isPos, cut, List.flatten_cons, List.flatten_cons,
      List.flatten_nil, List.append_nil]
    rfl
  | case2 words short =>
    rcases words with _ | ⟨first, _ | ⟨second, rest⟩⟩
    · rfl
    · rfl
    · exact absurd rfl (short first second rest)

theorem places_mergeTriples {words : List IndexWord} {pos : Nat}
    (samePos : ∀ word ∈ words, word.pos = pos) :
    (mergeTriples words).map place =
      (triples (words.map IndexWord.word)).map fun group => (pos, cut group) := by
  fun_induction mergeTriples words with
  | case1 first second third rest ih =>
    have isPos := samePos first List.mem_cons_self
    have alsoPos := samePos second (List.mem_cons_of_mem _ List.mem_cons_self)
    have thirdPos := samePos third
      (List.mem_cons_of_mem _ (List.mem_cons_of_mem _ List.mem_cons_self))
    obtain ⟨one, isOne, onePos, oneWord⟩ := mergeNoun_some (isPos.trans alsoPos.symm)
    obtain ⟨merged, isMerged, mergedPos, mergedWord⟩ :=
      mergeNoun_some (onePos.trans (isPos.trans thirdPos.symm))
    have others := ih fun word within => samePos word (List.mem_cons_of_mem _ within)
    rw [isOne, Option.bind_some, isMerged, Option.toList_some, List.map_append, others]
    show (merged.pos, merged.word) :: _ = (pos, cut [first.word, second.word, third.word]) :: _
    rw [mergedPos, mergedWord, onePos, isPos, oneWord, take_take_append, cut, List.flatten_cons,
      List.flatten_cons, List.flatten_cons, List.flatten_nil, List.append_nil, List.append_assoc]
    rfl
  | case2 words short =>
    rcases words with _ | ⟨first, _ | ⟨second, _ | ⟨third, rest⟩⟩⟩
    · rfl
    · rfl
    · rfl
    · exact absurd rfl (short first second third rest)

theorem places_compounds {words : List IndexWord} {pos : Nat}
    (samePos : ∀ word ∈ words, word.pos = pos) (notEmpty : words ≠ []) :
    (compounds words).map place =
      (pairs (words.map IndexWord.word) ++ triples (words.map IndexWord.word)).map
        fun group => (pos, cut group) := by
  rw [compounds, List.map_append, ← places_mergePairs samePos, ← places_mergeTriples samePos]
  rcases words with _ | ⟨first, _ | ⟨second, _ | ⟨third, rest⟩⟩⟩
  · exact absurd rfl notEmpty
  · rfl
  · exact (List.append_nil _).symm
  · rw [if_neg (by simp), if_neg (by simp), List.map_append]

/-- The words that one eojeol is written as where there is room for all of them. -/
def written (id : ExtractorId) (tmpWords : List IndexWord) : List IndexWord :=
  match id with
  | .id1 => (tmpWords ++ compounds tmpWords).filterMap fun word => mergeNoun word none
  | .id2 =>
    if tmpWords.length = 1 then tmpWords.filterMap fun word => mergeNoun word none
    else if tmpWords.length = 2 then mergePairs tmpWords
    else mergeTriples tmpWords

theorem places_copied (words : List IndexWord) :
    (words.filterMap fun word => mergeNoun word none).map place =
      (words.map place).map fun placed => (placed.1, placed.2.take (maxWordLen - 1)) := by
  induction words with
  | nil => rfl
  | cons word rest ih =>
    exact congrArg (List.cons (word.pos, word.word.take (maxWordLen - 1))) ih

theorem places_written (id : ExtractorId) {words : List IndexWord} {pos : Nat}
    (samePos : ∀ word ∈ words, word.pos = pos) (notEmpty : words ≠ []) :
    (written id words).map place =
      (groups id (words.map IndexWord.word)).map fun group => (pos, cut group) := by
  have isSingle : (words.filterMap fun word => mergeNoun word none).map place =
      ((words.map IndexWord.word).map fun word => [word]).map fun group => (pos, cut group) := by
    rw [places_copied, List.map_map, List.map_map, List.map_map]
    refine List.map_congr_left fun word within => ?_
    show (word.pos, word.word.take (maxWordLen - 1)) = (pos, cut [word.word])
    rw [samePos word within, cut, List.flatten_singleton]
  cases id with
  | id1 =>
    have isCut : ∀ groups : List (List (List UInt8)),
        ((groups.map fun group => (pos, cut group)).map fun placed : Nat × List UInt8 =>
          (placed.1, placed.2.take (maxWordLen - 1))) =
          groups.map fun group => (pos, cut group) := by
      intro groups
      rw [List.map_map]
      refine List.map_congr_left fun group _ => ?_
      show (pos, ((group.flatten.take _).take _)) = _
      rw [List.take_take, Nat.min_self]
      rfl
    rw [written, List.filterMap_append, List.map_append, isSingle, places_copied,
      places_compounds samePos notEmpty, isCut, ← List.map_append]
    rfl
  | id2 =>
    rw [written, groups, List.length_map]
    rcases words with _ | ⟨first, _ | ⟨second, _ | ⟨third, rest⟩⟩⟩
    · exact absurd rfl notEmpty
    · exact isSingle
    · exact places_mergePairs samePos
    · rw [if_neg (by simp), if_neg (by simp), if_neg (by simp)]
      exact places_mergeTriples samePos

/-- How many words of an eojeol are written where there is room for `room` of them. -/
def limited (id : ExtractorId) (room : Nat) (words : List IndexWord) : Option (List IndexWord) :=
  match id with
  | .id1 => some (words.take room)
  | .id2 => if words.length ≤ room then some words else none

theorem length_written (id : ExtractorId) {words : List IndexWord} {pos : Nat}
    (samePos : ∀ word ∈ words, word.pos = pos) (notEmpty : words ≠ []) :
    (written id words).length = outputs id words.length := by
  have places := congrArg List.length (places_written id samePos notEmpty)
  rwa [List.length_map, List.length_map, length_groups, List.length_map] at places

theorem length_compounds {words : List IndexWord} {pos : Nat}
    (samePos : ∀ word ∈ words, word.pos = pos) (notEmpty : words ≠ []) :
    (compounds words).length = (words.length - 1) + (words.length - 2) := by
  have places := congrArg List.length (places_compounds samePos notEmpty)
  rwa [List.length_map, List.length_map, List.length_append, length_pairs, length_triples,
    List.length_map] at places

theorem takeTmpWords_eq {h : Handle} {pos room : Nat} (isFirst : h.tmpIdx = 0)
    (samePos : ∀ word ∈ h.tmpWords, word.pos = pos) (notEmpty : h.tmpWords ≠ [])
    (atMost : h.tmpWords.length ≤ 31) (isRoom : 0 < room) :
    takeTmpWords h room =
      (limited h.id room (written h.id h.tmpWords)).map fun taken => (taken, h.clearTmp) := by
  have positive := List.length_pos_iff.mpr notEmpty
  have goes : ¬ (room = 0 ∨ h.tmpWords.length = 0) := by omega
  have count := length_compounds samePos notEmpty
  rw [takeTmpWords]
  cases isId : h.id with
  | id1 =>
    have fits : (h.tmpWords ++ compounds h.tmpWords).length ≤ tmpIndexWordSize := by
      rw [List.length_append, count]
      show _ ≤ 100
      omega
    show (if room = 0 ∨ h.tmpWords.length = 0 then _ else _) = _
    rw [if_neg goes, isFirst, if_pos rfl, if_pos fits]
    rfl
  | id2 =>
    show takeTmpWords12 h room = _
    rw [takeTmpWords12, if_neg goes, limited]
    show (if (written .id2 h.tmpWords).length ≤ room then _ else _) = _
    split
    · rfl
    · rfl

end ComplexNoun

end Wisebot.Extractor
