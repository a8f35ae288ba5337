import Wisebot.Extractor.ComplexNoun

namespace Wisebot.Extractor.ComplexNoun

open Wisebot.Lib

/-! The words of all calls of `cn_analyze` together. -/

/-- An entry of `tmp_words`. -/
def Morpheme.tmpWord (pos : Nat) (morpheme : Morpheme) : IndexWord :=
  ⟨kept morpheme.word, pos, 0, 0, morpheme.attr⟩

def Eojeol.tmpWords (eojeol : Eojeol) : List IndexWord :=
  eojeol.morphemes.map (Morpheme.tmpWord eojeol.pos)

def Eojeol.written (id : ExtractorId) (eojeol : Eojeol) : List IndexWord :=
  ComplexNoun.written id eojeol.tmpWords

theorem Eojeol.samePos (eojeol : Eojeol) : ∀ word ∈ eojeol.tmpWords, word.pos = eojeol.pos := by
  intro word within
  obtain ⟨morpheme, _, rfl⟩ := List.mem_map.mp within
  rfl

theorem Eojeol.tmpWords_ne_nil (eojeol : Eojeol) : eojeol.tmpWords ≠ [] :=
  fun isEmpty => eojeol.notEmpty (List.map_eq_nil_iff.mp isEmpty)

def Eojeol.size (id : ExtractorId) (eojeol : Eojeol) : Nat := outputs id eojeol.morphemes.length

theorem Eojeol.length_written (id : ExtractorId) (eojeol : Eojeol) :
    (eojeol.written id).length = eojeol.size id := by
  rw [Eojeol.written, ComplexNoun.length_written id eojeol.samePos eojeol.tmpWords_ne_nil,
    Eojeol.tmpWords, List.length_map]
  rfl

theorem Eojeol.size_pos (id : ExtractorId) (eojeol : Eojeol) : 0 < eojeol.size id :=
  outputs_pos id (List.length_pos_iff.mpr eojeol.notEmpty)

theorem Eojeol.places_written (id : ExtractorId) (eojeol : Eojeol) :
    (eojeol.written id).map place =
      (groups id eojeol.words).map fun group => (eojeol.pos, cut (group.map kept)) := by
  have isWords : eojeol.tmpWords.map IndexWord.word = eojeol.words.map kept := by
    rw [Eojeol.tmpWords, Eojeol.words, List.map_map, List.map_map]
    rfl
  rw [Eojeol.written, ComplexNoun.places_written id eojeol.samePos eojeol.tmpWords_ne_nil, isWords,
    groups_map, List.map_map]
  rfl

section Calls

variable {id : ExtractorId} {maxIndexWord : Nat} {h : Handle} {eojeol : Eojeol}
  {eojeols : List Eojeol} {batches : List Batch}

/-- All words of the eojeol are in `tmp_words`. -/
def Handle.collect (h : Handle) (eojeol : Eojeol) : Handle :=
  { h with
    tmpWords := eojeol.tmpWords
    komaIdx := h.komaIdx + eojeol.morphemes.length }

theorem putTmpWords_eq (room : h.tmpWords.length ≤ 30) (pos : Nat) (morpheme : Morpheme) :
    (putTmpWords h (morpheme.indexWord pos)).advance =
      { h with
        tmpWords := h.tmpWords ++ [morpheme.tmpWord pos]
        komaIdx := h.komaIdx + 1 } := by
  rw [putTmpWords, if_neg (by omega)]
  rfl

theorem analyzeLoop_words (morphemes : List Morpheme) (notEmpty : h.tmpWords ≠ [])
    (room : h.tmpWords.length + morphemes.length ≤ 31) (rest : List IndexWord) (count : Nat) :
    analyzeLoop maxIndexWord (morphemes.map (Morpheme.indexWord h.firstPos) ++ rest) count h =
      analyzeLoop maxIndexWord rest count
        { h with
          tmpWords := h.tmpWords ++ morphemes.map (Morpheme.tmpWord h.firstPos)
          komaIdx := h.komaIdx + morphemes.length } := by
  induction morphemes generalizing h with
  | nil =>
    show _ = analyzeLoop maxIndexWord rest count { h with tmpWords := h.tmpWords ++ [] }
    rw [List.append_nil]
    rfl
  | cons morpheme morphemes ih =>
    simp only [List.length_cons] at room
    have samePos : Handle.firstPos
        { h with
          tmpWords := h.tmpWords ++ [morpheme.tmpWord h.firstPos]
          komaIdx := h.komaIdx + 1 } = h.firstPos := by
      show ((h.tmpWords ++ _).head?.map _).getD 0 = _
      rw [List.head?_append_of_ne_nil _ notEmpty]
      rfl
    have others := ih
      (h := { h with
        tmpWords := h.tmpWords ++ [morpheme.tmpWord h.firstPos]
        komaIdx := h.komaIdx + 1 })
      (List.append_ne_nil_of_left_ne_nil notEmpty _)
      (by rw [List.length_append, List.length_singleton]; omega)
    rw [samePos] at others
    have isPos : ¬ h.firstPos ≠ (morpheme.indexWord h.firstPos).pos := not_not.mpr rfl
    rw [List.map_cons, List.cons_append, analyzeLoop, if_neg isPos, putTmpWords_eq (by omega)]
    refine others.trans ?_
    rw [List.map_cons, List.length_cons, Nat.add_comm morphemes.length, ← Nat.add_assoc,
      List.append_cons _ _ (List.map _ morphemes)]

theorem analyzeLoop_collect (eojeol : Eojeol) (isEmpty : h.tmpWords = []) {first : Morpheme}
    {others : List Morpheme} (isWords : eojeol.morphemes = first :: others) (rest : List IndexWord)
    (count : Nat) :
    analyzeLoop maxIndexWord (others.map (Morpheme.indexWord eojeol.pos) ++ rest) count
        (putTmpWords h (first.indexWord eojeol.pos)).advance =
      analyzeLoop maxIndexWord rest count (h.collect eojeol) := by
  have atMost := eojeol.atMost
  rw [isWords, List.length_cons] at atMost
  rw [putTmpWords_eq (by rw [isEmpty]; exact Nat.zero_le _), isEmpty, List.nil_append]
  refine (analyzeLoop_words others
    (h := { h with tmpWords := [first.tmpWord eojeol.pos], komaIdx := h.komaIdx + 1 })
    (List.cons_ne_nil _ _) (by rw [List.length_singleton]; omega) rest count).trans ?_
  rw [Handle.collect, Eojeol.tmpWords, isWords, List.length_cons, Nat.add_comm others.length,
    ← Nat.add_assoc]
  rfl

/-- Between two calls: the eojeols that are left of the batch, and the batches behind it. -/
structure Handle.Between (h : Handle) (id : ExtractorId) (eojeols : List Eojeol)
    (batches : List Batch) : Prop where
  isId : h.id = id
  koma : h.koma = batches.map Batch.indexWords
  tmpWords : h.tmpWords = []
  tmpIdx : h.tmpIdx = 0
  going : h.endOfText = false
  rest : h.komaWords.drop h.komaIdx = eojeols.flatMap Eojeol.indexWords
  empty : eojeols = [] → h.komaWords = []
  apart : eojeols.IsChain fun first second => first.pos ≠ second.pos

/-- Inside the loop: the words of the first eojeol have been collected. -/
structure Handle.Collected (h : Handle) (id : ExtractorId) (eojeol : Eojeol)
    (eojeols : List Eojeol) (batches : List Batch) : Prop where
  isId : h.id = id
  koma : h.koma = batches.map Batch.indexWords
  tmpWords : h.tmpWords = eojeol.tmpWords
  tmpIdx : h.tmpIdx = 0
  going : h.endOfText = false
  rest : h.komaWords.drop h.komaIdx = eojeols.flatMap Eojeol.indexWords
  apart : (eojeol :: eojeols).IsChain fun first second => first.pos ≠ second.pos

theorem Handle.Between.collect (between : h.Between id (eojeol :: eojeols) batches) :
    (h.collect eojeol).Collected id eojeol eojeols batches where
  isId := between.isId
  koma := between.koma
  tmpWords := rfl
  tmpIdx := between.tmpIdx
  going := between.going
  rest := by
    show h.komaWords.drop (h.komaIdx + eojeol.morphemes.length) = _
    rw [← List.drop_drop, between.rest, List.flatMap_cons]
    exact List.drop_left' (List.length_map ..)
  apart := between.apart

theorem Handle.Collected.firstPos (collected : h.Collected id eojeol eojeols batches) :
    h.firstPos = eojeol.pos := by
  obtain ⟨first, others, isWords⟩ := List.exists_cons_of_ne_nil eojeol.notEmpty
  rw [Handle.firstPos, collected.tmpWords, Eojeol.tmpWords, isWords]
  rfl

theorem Handle.Collected.clearTmp {next : Eojeol}
    (collected : h.Collected id eojeol (next :: eojeols) batches) :
    h.clearTmp.Between id (next :: eojeols) batches where
  isId := collected.isId
  koma := collected.koma
  tmpWords := rfl
  tmpIdx := rfl
  going := collected.going
  rest := collected.rest
  empty := fun never => by cases never
  apart := collected.apart.tail

theorem Handle.Collected.takeTmpWords (collected : h.Collected id eojeol eojeols batches)
    {room : Nat} (isRoom : 0 < room) :
    takeTmpWords h room =
      (limited id room (eojeol.written id)).map fun taken => (taken, h.clearTmp) := by
  have isTmp := collected.tmpWords
  have samePos : ∀ word ∈ h.tmpWords, word.pos = eojeol.pos := by
    rw [isTmp]
    exact eojeol.samePos
  have taken := takeTmpWords_eq collected.tmpIdx samePos
    (by rw [isTmp]; exact eojeol.tmpWords_ne_nil)
    (by rw [isTmp, Eojeol.tmpWords, List.length_map]; exact eojeol.atMost) isRoom
  rw [taken, collected.isId, isTmp]
  rfl

theorem length_of_limited {room : Nat} {words taken : List IndexWord}
    (isTaken : limited id room words = some taken) : taken.length ≤ room := by
  cases id with
  | id1 =>
    cases isTaken
    exact List.length_take_le ..
  | id2 =>
    rw [limited] at isTaken
    split at isTaken
    · cases isTaken
      assumption
    · cases isTaken

/-- What a call writes for the eojeols from one on, and those that are left for the next
call. -/
def deliver (id : ExtractorId) (maxIndexWord : Nat) :
    (count : Nat) → Eojeol → List Eojeol → Option (List IndexWord × List Eojeol)
  | count, eojeol, [] =>
    (limited id (maxIndexWord - count) (eojeol.written id)).map fun taken => (taken, [])
  | count, eojeol, next :: rest =>
    (limited id (maxIndexWord - count) (eojeol.written id)).bind fun taken =>
      if count + taken.length = maxIndexWord then some (taken, next :: rest)
      else
        (deliver id maxIndexWord (count + taken.length) next rest).map fun others =>
          (taken ++ others.1, others.2)

theorem flatMap_indexWords {first : Morpheme} {others : List Morpheme}
    (isWords : eojeol.morphemes = first :: others) (rest : List Eojeol) :
    (eojeol :: rest).flatMap Eojeol.indexWords =
      first.indexWord eojeol.pos ::
        (others.map (Morpheme.indexWord eojeol.pos) ++ rest.flatMap Eojeol.indexWords) := by
  rw [List.flatMap_cons, Eojeol.indexWords, isWords]
  rfl

def Agree (id : ExtractorId) (batches : List Batch) (delivered : Option (List IndexWord × List Eojeol))
    (called : Option (List IndexWord × Handle)) : Prop :=
  match delivered with
  | none => called = none
  | some (answer, eojeols) => ∃ next, called = some (answer, next) ∧ next.Between id eojeols batches

theorem analyzeLoop_deliver (collected : h.Collected id eojeol eojeols batches) {count : Nat}
    (room : count < maxIndexWord) :
    Agree id batches (deliver id maxIndexWord count eojeol eojeols)
      (analyzeLoop maxIndexWord (eojeols.flatMap Eojeol.indexWords) count h) := by
  induction eojeols generalizing h eojeol count with
  | nil =>
    rw [deliver, List.flatMap_nil, analyzeLoop, collected.takeTmpWords (by omega)]
    cases limited id (maxIndexWord - count) (eojeol.written id) with
    | none => rfl
    | some taken =>
      exact ⟨_, rfl, collected.isId, collected.koma, rfl, rfl, collected.going,
        List.drop_nil, fun _ => rfl, .nil⟩
  | cons next rest ih =>
    obtain ⟨first, others, isWords⟩ := List.exists_cons_of_ne_nil next.notEmpty
    have between := collected.clearTmp
    have isApart : h.firstPos ≠ (first.indexWord next.pos).pos := by
      rw [collected.firstPos]
      exact collected.apart.rel
    rw [deliver, flatMap_indexWords isWords, analyzeLoop, if_pos isApart, collected.takeTmpWords (by omega)]
    cases isTaken : limited id (maxIndexWord - count) (eojeol.written id) with
    | none => rfl
    | some taken =>
      rw [Option.map_some, Option.bind_some, Option.bind_some]
      split
      case isTrue => exact ⟨_, rfl, between⟩
      case isFalse notFull =>
        rw [analyzeLoop_collect next rfl isWords]
        have few := length_of_limited isTaken
        have isRoom : count + taken.length < maxIndexWord := by omega
        have goesOn := ih between.collect isRoom
        cases isDelivered : deliver id maxIndexWord (count + taken.length) next rest with
        | none =>
          rw [isDelivered] at goesOn
          exact congrArg (Option.map _) goesOn
        | some others =>
          rw [isDelivered] at goesOn
          obtain ⟨after, isAfter, afterBetween⟩ := goesOn
          exact ⟨after, congrArg (Option.map _) isAfter, afterBetween⟩

theorem map_nothing_before (answered : Option (List IndexWord × Handle)) :
    (answered.map fun others => ([] ++ others.1, others.2)) = answered := by
  cases answered with
  | none => rfl
  | some answered => rfl

theorem cnAnalyze_going (noTmp : h.tmpWords = []) (going : h.endOfText = false)
    (notEmpty : h.komaWords.length ≠ 0) :
    cnAnalyze maxIndexWord h =
      analyzeLoop maxIndexWord (h.komaWords.drop h.komaIdx) 0 h := by
  rw [cnAnalyze, if_neg (by rw [noTmp]; decide), analyzeKoma, if_neg (by rw [going]; decide),
    if_neg notEmpty, List.length_nil, map_nothing_before]

theorem cnAnalyze_fetch {word : IndexWord} {words : List IndexWord}
    {batches : List (List IndexWord)} (noTmp : h.tmpWords = []) (going : h.endOfText = false)
    (isEmpty : h.komaWords.length = 0) (isKoma : h.koma = (word :: words) :: batches) :
    cnAnalyze maxIndexWord h =
      analyzeLoop maxIndexWord (word :: words) 0
        { h with koma := batches, komaIdx := 0, komaWords := word :: words } := by
  rw [cnAnalyze, if_neg (by rw [noTmp]; decide), analyzeKoma, if_neg (by rw [going]; decide),
    if_pos isEmpty, isKoma]
  exact map_nothing_before _

theorem cnAnalyze_deliver (between : h.Between id (eojeol :: eojeols) batches)
    (room : 0 < maxIndexWord) :
    Agree id batches (deliver id maxIndexWord 0 eojeol eojeols) (cnAnalyze maxIndexWord h) := by
  obtain ⟨first, others, isWords⟩ := List.exists_cons_of_ne_nil eojeol.notEmpty
  have isRest := between.rest
  rw [flatMap_indexWords isWords] at isRest
  have notEmpty : h.komaWords.length ≠ 0 := by
    intro none
    rw [List.eq_nil_of_length_eq_zero none, List.drop_nil] at isRest
    cases isRest
  have isApart : h.firstPos ≠ (first.indexWord eojeol.pos).pos := by
    have positive := eojeol.positive
    rw [Handle.firstPos, between.tmpWords]
    show 0 ≠ eojeol.pos
    omega
  have nothing : takeTmpWords h (maxIndexWord - 0) = some ([], h) := by
    have noWords : maxIndexWord - 0 = 0 ∨ h.tmpWords.length = 0 := by
      rw [between.tmpWords]
      exact .inr rfl
    rw [takeTmpWords]
    cases h.id with
    | id1 => exact if_pos noWords
    | id2 => exact if_pos noWords
  have notFull : ¬ 0 + ([] : List IndexWord).length = maxIndexWord := by
    show ¬ 0 = maxIndexWord
    omega
  have same : cnAnalyze maxIndexWord h =
      analyzeLoop maxIndexWord (eojeols.flatMap Eojeol.indexWords) 0 (h.collect eojeol) := by
    rw [cnAnalyze_going between.tmpWords between.going notEmpty, isRest, analyzeLoop,
      if_pos isApart, nothing, Option.bind_some, if_neg notFull,
      analyzeLoop_collect eojeol between.tmpWords isWords]
    exact map_nothing_before _
  rw [same]
  exact analyzeLoop_deliver between.collect room

/-- The next batch is fetched when the words of the last one have all been looked at. -/
theorem Handle.Between.fetch {batch : Batch} (between : h.Between id [] (batch :: batches)) :
    ∃ fetched : Handle, fetched.Between id batch.eojeols batches ∧
      cnAnalyze maxIndexWord h = cnAnalyze maxIndexWord fetched := by
  obtain ⟨eojeol, eojeols, isEojeols⟩ := List.exists_cons_of_ne_nil batch.notEmpty
  obtain ⟨first, others, isWords⟩ := List.exists_cons_of_ne_nil eojeol.notEmpty
  have isBatch := flatMap_indexWords isWords eojeols
  rw [← isEojeols] at isBatch
  have noWords : h.komaWords.length = 0 := by
    rw [between.empty rfl]
    rfl
  have isKoma := between.koma
  rw [List.map_cons, Batch.indexWords, isBatch] at isKoma
  refine ⟨{ h with
      koma := batches.map Batch.indexWords
      komaIdx := 0
      komaWords := first.indexWord eojeol.pos ::
        (others.map (Morpheme.indexWord eojeol.pos) ++ eojeols.flatMap Eojeol.indexWords) },
    ⟨between.isId, rfl, between.tmpWords, between.tmpIdx, between.going, isBatch.symm,
      fun isEmpty => absurd isEmpty batch.notEmpty, batch.apart⟩, ?_⟩
  rw [cnAnalyze_fetch between.tmpWords between.going noWords isKoma]
  symm
  exact cnAnalyze_going between.tmpWords between.going (Nat.succ_ne_zero _)

theorem cnAnalyze_end (between : h.Between id [] []) :
    ∃ next, cnAnalyze maxIndexWord h = some ([], next) := by
  have noWords : h.komaWords.length = 0 := by
    rw [between.empty rfl]
    rfl
  rw [cnAnalyze, between.tmpWords, if_neg (by decide), analyzeKoma, between.going,
    if_neg (by decide), if_pos noWords, between.koma]
  exact ⟨_, rfl⟩

end Calls

/-- No eojeol has its words on both sides of the end of the buffer, which the call after
begins anew where an eojeol ends there. -/
def FitsFrom (id : ExtractorId) (maxIndexWord : Nat) : (count : Nat) → List Eojeol → Prop
  | _, [] => True
  | count, eojeol :: rest =>
    count + eojeol.size id ≤ maxIndexWord ∧
      FitsFrom id maxIndexWord
        (if count + eojeol.size id = maxIndexWord then 0 else count + eojeol.size id) rest

instance decideFitsFrom (id : ExtractorId) (maxIndexWord : Nat) :
    (count : Nat) → (eojeols : List Eojeol) → Decidable (FitsFrom id maxIndexWord count eojeols)
  | _, [] => inferInstanceAs (Decidable True)
  | count, eojeol :: rest =>
    have := decideFitsFrom id maxIndexWord
      (if count + eojeol.size id = maxIndexWord then 0 else count + eojeol.size id) rest
    inferInstanceAs (Decidable (_ ∧ FitsFrom id maxIndexWord _ rest))

section Fitting

variable {id : ExtractorId} {maxIndexWord : Nat}

theorem limited_of_fits {room : Nat} {words : List IndexWord} (fits : words.length ≤ room) :
    limited id room words = some words := by
  cases id with
  | id1 => exact congrArg some (List.take_of_length_le fits)
  | id2 => exact if_pos fits

theorem limited_short {room : Nat} {words taken : List IndexWord}
    (isTaken : limited id room words = some taken) : taken.length ≤ words.length := by
  cases id with
  | id1 =>
    cases isTaken
    exact List.length_take_le' ..
  | id2 =>
    rw [limited] at isTaken
    split at isTaken
    · cases isTaken
      exact le_refl _
    · cases isTaken

theorem limited_ne_nil {room : Nat} {words taken : List IndexWord}
    (isTaken : limited id room words = some taken) (isRoom : 0 < room)
    (notEmpty : 0 < words.length) : taken ≠ [] := by
  refine List.ne_nil_of_length_pos ?_
  cases id with
  | id1 =>
    cases isTaken
    rw [List.length_take]
    omega
  | id2 =>
    rw [limited] at isTaken
    split at isTaken
    · cases isTaken
      exact notEmpty
    · cases isTaken

def allWritten (id : ExtractorId) (eojeols : List Eojeol) : List IndexWord :=
  eojeols.flatMap (Eojeol.written id)

theorem allWritten_cons (eojeol : Eojeol) (rest : List Eojeol) :
    allWritten id (eojeol :: rest) = eojeol.written id ++ allWritten id rest := List.flatMap_cons

theorem deliver_of_fits {count : Nat} (room : count < maxIndexWord)
    (fits : FitsFrom id maxIndexWord count (eojeol :: eojeols)) :
    ∃ answer others, deliver id maxIndexWord count eojeol eojeols = some (answer, others) ∧
      answer ≠ [] ∧ count + answer.length ≤ maxIndexWord ∧ others.length ≤ eojeols.length ∧
      answer ++ allWritten id others = allWritten id (eojeol :: eojeols) ∧
      FitsFrom id maxIndexWord 0 others := by
  induction eojeols generalizing eojeol count with
  | nil =>
    have isSize := eojeol.length_written id
    have positive := eojeol.size_pos id
    obtain ⟨within, _⟩ := fits
    refine ⟨eojeol.written id, [], ?_, ?_, by omega, le_refl _, rfl, trivial⟩
    · rw [deliver, limited_of_fits (by omega)]
      rfl
    · exact List.ne_nil_of_length_pos (by omega)
  | cons next rest ih =>
    have isSize := eojeol.length_written id
    have positive := eojeol.size_pos id
    obtain ⟨within, others⟩ := fits
    have notEmpty : eojeol.written id ≠ [] := List.ne_nil_of_length_pos (by omega)
    rw [deliver, limited_of_fits (by omega), Option.bind_some]
    by_cases isFull : count + eojeol.size id = maxIndexWord
    · rw [if_pos isFull] at others
      rw [if_pos (by omega)]
      exact ⟨_, _, rfl, notEmpty, by omega, le_refl _, rfl, others⟩
    · rw [if_neg isFull, ← isSize] at others
      rw [if_neg (by omega)]
      obtain ⟨answer, left, delivered, _, fewer, shorter, whole, fitsLeft⟩ :=
        ih (by omega) others
      refine ⟨eojeol.written id ++ answer, left, congrArg (Option.map _) delivered, ?_, ?_, ?_,
        ?_, fitsLeft⟩
      · exact List.append_ne_nil_of_left_ne_nil notEmpty _
      · rw [List.length_append]
        omega
      · exact shorter.trans (Nat.le_succ _)
      · rw [List.append_assoc, whole]
        rfl

theorem fits_of_deliver {others : List Eojeol} {count : Nat} {answer : List IndexWord}
    (room : count < maxIndexWord)
    (delivered : deliver id maxIndexWord count eojeol eojeols = some (answer, others)) :
    answer ≠ [] ∧ count + answer.length ≤ maxIndexWord ∧ others.length ≤ eojeols.length ∧
      answer.length + (allWritten id others).length ≤ (allWritten id (eojeol :: eojeols)).length ∧
      (answer.length + (allWritten id others).length =
          (allWritten id (eojeol :: eojeols)).length → FitsFrom id maxIndexWord 0 others →
        FitsFrom id maxIndexWord count (eojeol :: eojeols)) := by
  induction eojeols generalizing eojeol count answer with
  | nil =>
    obtain ⟨taken, isTaken, isAnswer⟩ := Option.map_eq_some_iff.mp delivered
    cases isAnswer
    have isSize := eojeol.length_written id
    have positive := eojeol.size_pos id
    have few := length_of_limited isTaken
    have short := limited_short isTaken
    rw [allWritten_cons, List.length_append]
    refine ⟨limited_ne_nil isTaken (by omega) (by omega), by omega, le_refl _, by omega, ?_⟩
    intro same _
    exact ⟨by omega, trivial⟩
  | cons next rest ih =>
    obtain ⟨taken, isTaken, isAnswer⟩ := Option.bind_eq_some_iff.mp delivered
    have isSize := eojeol.length_written id
    have positive := eojeol.size_pos id
    have few := length_of_limited isTaken
    have short := limited_short isTaken
    have notEmpty := limited_ne_nil isTaken (by omega) (by omega)
    rw [allWritten_cons, List.length_append]
    split at isAnswer
    case isTrue isFull =>
      cases isAnswer
      refine ⟨notEmpty, by omega, le_refl _, by omega, fun same fits => ⟨by omega, ?_⟩⟩
      rw [if_pos (by omega)]
      exact fits
    case isFalse notFull =>
      obtain ⟨later, isLater, isBoth⟩ := Option.map_eq_some_iff.mp isAnswer
      cases isBoth
      obtain ⟨_, within, shorter, less, fitsLater⟩ := ih (by omega) isLater
      rw [List.length_append]
      refine ⟨List.append_ne_nil_of_left_ne_nil notEmpty _, by omega,
        shorter.trans (Nat.le_succ _), by omega, fun same fits => ⟨by omega, ?_⟩⟩
      have isAll : taken.length = eojeol.size id := by omega
      rw [← isAll, if_neg notFull]
      exact fitsLater (by omega) fits

/-- The words of the eojeols that are left, and of those of the batches behind them. -/
def left (id : ExtractorId) (eojeols : List Eojeol) (batches : List Batch) : List IndexWord :=
  allWritten id eojeols ++ allWritten id (batches.flatMap Batch.eojeols)

/-- No eojeol of those that are left meets the end of the buffer. -/
def FitsLeft (id : ExtractorId) (maxIndexWord : Nat) (eojeols : List Eojeol)
    (batches : List Batch) : Prop :=
  FitsFrom id maxIndexWord 0 eojeols ∧
    ∀ batch ∈ batches, FitsFrom id maxIndexWord 0 batch.eojeols

/-- The calls that are left find all words if no eojeol meets the end of the buffer, and
otherwise fewer words. -/
structure Counted (id : ExtractorId) (maxIndexWord : Nat) (h : Handle) (eojeols : List Eojeol)
    (batches : List Batch) : Prop where
  complete : FitsLeft id maxIndexWord eojeols batches →
    Drained (cnAnalyze maxIndexWord) maxIndexWord h (left id eojeols batches)
  fewer : ∀ all, Drained (cnAnalyze maxIndexWord) maxIndexWord h all →
    all.length ≤ (left id eojeols batches).length
  fits : ∀ all, Drained (cnAnalyze maxIndexWord) maxIndexWord h all →
    all.length = (left id eojeols batches).length → FitsLeft id maxIndexWord eojeols batches

theorem counted_call {rest : List Eojeol} (between : h.Between id (eojeol :: rest) batches)
    (room : 0 < maxIndexWord)
    (later : ∀ (next : Handle) (others : List Eojeol), others.length ≤ rest.length →
      next.Between id others batches → Counted id maxIndexWord next others batches) :
    Counted id maxIndexWord h (eojeol :: rest) batches := by
  have agree := cnAnalyze_deliver between room
  cases delivered : deliver id maxIndexWord 0 eojeol rest with
  | none =>
    rw [delivered] at agree
    refine ⟨fun fits => ?_, fun all drained => absurd drained (drained_none agree all),
      fun all drained => absurd drained (drained_none agree all)⟩
    obtain ⟨answer, others, never, _⟩ := deliver_of_fits room fits.1
    rw [delivered] at never
    cases never
  | some answered =>
    obtain ⟨answer, others⟩ := answered
    rw [delivered] at agree
    obtain ⟨next, called, nextBetween⟩ := agree
    obtain ⟨notEmpty, within, shorter, less, fitsLess⟩ := fits_of_deliver room delivered
    have counted := later next others shorter nextBetween
    refine ⟨fun fits => ?_, fun all drained => ?_, fun all drained same => ?_⟩
    · obtain ⟨_, _, isSame, _, _, _, whole, fitsOthers⟩ := deliver_of_fits room fits.1
      rw [delivered] at isSame
      cases isSame
      rw [left, ← whole, List.append_assoc]
      exact .more called notEmpty (by omega) (counted.complete ⟨fitsOthers, fits.2⟩)
    · obtain ⟨_, rest, rfl, drainedRest⟩ := (drained_more_iff called notEmpty).mp drained
      have fewer := counted.fewer rest drainedRest
      rw [left, List.length_append] at fewer ⊢
      rw [List.length_append]
      omega
    · obtain ⟨_, rest, rfl, drainedRest⟩ := (drained_more_iff called notEmpty).mp drained
      have fewer := counted.fewer rest drainedRest
      have fits := counted.fits rest drainedRest
      rw [left, List.length_append] at fewer same fits
      rw [List.length_append] at same
      obtain ⟨fitsOthers, fitsBatches⟩ := fits (by omega)
      exact ⟨fitsLess (by omega) fitsOthers, fitsBatches⟩

theorem counted_of_empty (room : 0 < maxIndexWord)
    (base : ∀ h : Handle, h.Between id [] batches → Counted id maxIndexWord h [] batches)
    (count : Nat) (few : eojeols.length ≤ count) (between : h.Between id eojeols batches) :
    Counted id maxIndexWord h eojeols batches := by
  induction count generalizing eojeols h with
  | zero =>
    obtain rfl := List.eq_nil_of_length_eq_zero (Nat.le_zero.mp few)
    exact base h between
  | succ count ih =>
    cases eojeols with
    | nil => exact base h between
    | cons eojeol rest =>
      refine counted_call between room fun next others shorter nextBetween => ?_
      exact ih (shorter.trans (Nat.le_of_succ_le_succ few)) nextBetween

theorem counted (between : h.Between id eojeols batches) (room : 0 < maxIndexWord) :
    Counted id maxIndexWord h eojeols batches := by
  induction batches generalizing eojeols h with
  | nil =>
    refine counted_of_empty room (fun empty atEnd => ?_) eojeols.length (le_refl _) between
    obtain ⟨next, called⟩ := @cnAnalyze_end id maxIndexWord _ atEnd
    refine ⟨fun _ => .last called, fun all drained => ?_, fun _ _ _ => ?_⟩
    · rw [(drained_last_iff called).mp drained]
      exact Nat.zero_le _
    · exact ⟨trivial, fun batch never => by cases never⟩
  | cons batch batches ih =>
    refine counted_of_empty room (fun empty atEnd => ?_) eojeols.length (le_refl _) between
    obtain ⟨fetched, fetchedBetween, same⟩ := @Handle.Between.fetch id maxIndexWord _ _ _ atEnd
    have others := ih fetchedBetween
    have isLeft : left id [] (batch :: batches) = left id batch.eojeols batches := by
      rw [left, left, List.flatMap_cons, allWritten, allWritten, List.flatMap_append]
      rfl
    have isFits : FitsLeft id maxIndexWord [] (batch :: batches) ↔
        FitsLeft id maxIndexWord batch.eojeols batches := by
      rw [FitsLeft, FitsLeft, List.forall_mem_cons]
      exact and_iff_right trivial
    refine ⟨fun fits => ?_, fun all drained => ?_, fun all drained length => ?_⟩
    · rw [isLeft]
      exact (drained_congr same).mpr (others.complete (isFits.mp fits))
    · rw [isLeft]
      exact others.fewer all ((drained_congr same).mp drained)
    · rw [isLeft] at length
      exact isFits.mpr (others.fits all ((drained_congr same).mp drained) length)

theorem setText_between (id : ExtractorId) (batches : List Batch) :
    (setText id (batches.map Batch.indexWords)).Between id [] batches :=
  ⟨rfl, rfl, rfl, rfl, rfl, rfl, fun _ => rfl, .nil⟩

theorem place_allWritten (eojeols : List Eojeol) :
    (allWritten id eojeols).map place =
      (eojeols.flatMap fun eojeol => (groups id eojeol.words).map fun group =>
        (eojeol.pos, group)).map fun placed => (placed.1, cut (placed.2.map kept)) := by
  induction eojeols with
  | nil => rfl
  | cons eojeol rest ih =>
    rw [allWritten_cons, List.map_append, ih, eojeol.places_written, List.flatMap_cons,
      List.map_append, List.map_map]
    rfl

theorem yields_eq (eojeols : List Eojeol) :
    eojeols.flatMap (Eojeol.yields id) =
      (eojeols.flatMap fun eojeol => (groups id eojeol.words).map fun group =>
        (eojeol.pos, group)).map fun placed => (placed.1, cut placed.2) := by
  induction eojeols with
  | nil => rfl
  | cons eojeol rest ih =>
    rw [List.flatMap_cons, List.flatMap_cons, ih, List.map_append, List.map_map]
    rfl

theorem mem_groups {words group : List (List UInt8)} (within : group ∈ groups id words) :
    ∀ word ∈ group, word ∈ words := by
  rw [← List.attach_map_subtype_val words, groups_map] at within
  obtain ⟨attached, _, rfl⟩ := List.mem_map.mp within
  intro word isWord
  obtain ⟨⟨_, isMember⟩, _, rfl⟩ := List.mem_map.mp isWord
  exact isMember

theorem Eojeol.short (eojeol : Eojeol) : ∀ word ∈ eojeol.words, word.length < maxWordLen := by
  intro word within
  obtain ⟨morpheme, _, rfl⟩ := List.mem_map.mp within
  exact morpheme.short

/-- The words that are written are those that are to be found exactly when the words that
are joined lose no byte. -/
theorem allWritten_eq_iff (eojeols : List Eojeol) :
    (allWritten id eojeols).map place = eojeols.flatMap (Eojeol.yields id) ↔
      ∀ eojeol ∈ eojeols, ∀ group ∈ groups id eojeol.words, Unharmed group := by
  rw [place_allWritten, yields_eq, List.map_inj_left]
  constructor
  · intro same eojeol isEojeol group isGroup
    have isPlaced : (eojeol.pos, group) ∈ eojeols.flatMap fun eojeol =>
        (groups id eojeol.words).map fun group => (eojeol.pos, group) :=
      List.mem_flatMap.mpr ⟨eojeol, isEojeol, List.mem_map_of_mem isGroup⟩
    refine (cut_kept_iff fun word within => eojeol.short word (mem_groups isGroup word within)).mp ?_
    exact congrArg Prod.snd (same _ isPlaced)
  · intro unharmed placed isPlaced
    obtain ⟨eojeol, isEojeol, isGroup⟩ := List.mem_flatMap.mp isPlaced
    obtain ⟨group, within, rfl⟩ := List.mem_map.mp isGroup
    exact congrArg (Prod.mk eojeol.pos)
      ((cut_kept_iff fun word isWord => eojeol.short word (mem_groups within word isWord)).mpr
        (unharmed eojeol isEojeol group within))

theorem length_yields (eojeols : List Eojeol) :
    (eojeols.flatMap (Eojeol.yields id)).length = (allWritten id eojeols).length := by
  have places := congrArg List.length (@place_allWritten id eojeols)
  rw [List.length_map, List.length_map] at places
  rw [yields_eq, List.length_map, places]

/-- All words of all eojeols are written exactly when no eojeol meets the end of the
buffer and no word that is joined loses a byte. -/
theorem cnAnalyze_complete_iff (id : ExtractorId) (batches : List Batch) {maxIndexWord : Nat}
    (room : 0 < maxIndexWord) :
    (∃ all, Drained (cnAnalyze maxIndexWord) maxIndexWord
        (setText id (batches.map Batch.indexWords)) all ∧
      all.map place = (batches.flatMap Batch.eojeols).flatMap (Eojeol.yields id)) ↔
      (∀ batch ∈ batches, FitsFrom id maxIndexWord 0 batch.eojeols) ∧
        ∀ eojeol ∈ batches.flatMap Batch.eojeols, ∀ group ∈ groups id eojeol.words,
          Unharmed group := by
  have isCounted := counted (setText_between id batches) room
  rw [← allWritten_eq_iff]
  constructor
  · rintro ⟨all, drained, same⟩
    have isLength : all.length = (left id [] batches).length := by
      rw [← List.length_map place, same, length_yields]
      rfl
    have fits := isCounted.fits all drained isLength
    have isAll := drained.unique (isCounted.complete fits)
    rw [isAll] at same
    exact ⟨fits.2, same⟩
  · rintro ⟨fits, same⟩
    exact ⟨_, isCounted.complete ⟨trivial, fits⟩, same⟩

end Fitting

theorem letter_short : [(65 : UInt8)].length < maxWordLen := by decide

theorem letter_string : (0 : UInt8) ∉ [65] := by decide

def letter : Morpheme := ⟨[65], 0, 1, 0, letter_short, letter_string⟩

def letters (pos count : Nat) (positive : 1 ≤ pos) (isCount : 0 < count ∧ count ≤ 31) : Eojeol where
  pos := pos
  morphemes := List.replicate count letter
  positive := positive
  notEmpty := fun isEmpty =>
    Nat.ne_of_gt isCount.1 ((List.length_replicate).symm.trans (congrArg List.length isEmpty))
  atMost := (List.length_replicate).trans_le isCount.2

theorem isCount_two : 0 < 2 ∧ 2 ≤ 31 := by decide

theorem isCount_many : 0 < 30 ∧ 30 ≤ 31 := by decide

theorem isCount_three : 0 < 3 ∧ 3 ≤ 31 := by decide

theorem letters_size {first second : Nat} (one : 0 < first ∧ first ≤ 31)
    (two : 0 < second ∧ second ≤ 31) (positive : 1 ≤ 1) (next : 1 ≤ 2) :
    ([letters 1 first positive one, letters 2 second next two].flatMap
      Eojeol.indexWords).length ≤ komaIndexWordSize := by
  rw [List.flatMap_cons, List.flatMap_cons, List.flatMap_nil, List.append_nil, List.length_append,
    Eojeol.indexWords, Eojeol.indexWords, List.length_map, List.length_map, letters, letters,
    List.length_replicate, List.length_replicate]
  show first + second ≤ 1024
  omega

def twoEojeols (first second : Nat) (one : 0 < first ∧ first ≤ 31)
    (two : 0 < second ∧ second ≤ 31) : Batch where
  eojeols := [letters 1 first (le_refl 1) one, letters 2 second (Nat.le_succ 1) two]
  notEmpty := List.cons_ne_nil _ _
  apart := .cons_cons (Nat.ne_of_lt (Nat.lt_succ_self 1)) (.singleton _)
  size := letters_size one two (le_refl 1) (Nat.le_succ 1)

theorem cnAnalyze_complete_two :
    ∃ all, Drained (cnAnalyze 90) 90
        (setText .id1 [(twoEojeols 2 3 isCount_two isCount_three).indexWords]) all ∧
      all.map place =
        [(1, [65]), (1, [65]), (1, [65, 65]), (2, [65]), (2, [65]), (2, [65]), (2, [65, 65]),
          (2, [65, 65]), (2, [65, 65, 65])] := by
  have fits : ∀ batch ∈ [twoEojeols 2 3 isCount_two isCount_three],
      FitsFrom .id1 90 0 batch.eojeols := by decide +kernel
  have unharmed : ∀ eojeol ∈ [twoEojeols 2 3 isCount_two isCount_three].flatMap Batch.eojeols,
      ∀ group ∈ groups .id1 eojeol.words, Unharmed group := by decide +kernel
  exact (cnAnalyze_complete_iff .id1 [twoEojeols 2 3 isCount_two isCount_three]
    (Nat.zero_lt_succ 89)).mpr ⟨fits, unharmed⟩

/-- The 87 words of the first eojeol leave no room for the 6 words of the second. -/
theorem cnAnalyze_incomplete :
    ¬ ∃ all, Drained (cnAnalyze 90) 90
        (setText .id1 [(twoEojeols 30 3 isCount_many isCount_three).indexWords]) all ∧
      all.map place =
        [twoEojeols 30 3 isCount_many isCount_three].flatMap fun batch =>
          batch.eojeols.flatMap (Eojeol.yields .id1) := by
  rintro ⟨all, drained, same⟩
  have isCounted := counted
    (setText_between .id1 [twoEojeols 30 3 isCount_many isCount_three]) (Nat.zero_lt_succ 89)
  have isLength : all.length =
      (left .id1 [] [twoEojeols 30 3 isCount_many isCount_three]).length := by
    rw [← List.length_map place, same]
    decide +kernel
  have fits := (isCounted.fits all drained isLength).2 _ List.mem_cons_self
  have never : ¬ FitsFrom .id1 90 0 (twoEojeols 30 3 isCount_many isCount_three).eojeols := by
    decide +kernel
  exact never fits

end Wisebot.Extractor.ComplexNoun
