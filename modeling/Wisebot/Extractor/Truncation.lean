import Mathlib.Data.List.Nodup
import Wisebot.Extractor.ComplexNoun

namespace Wisebot.Extractor.Truncation

open Wisebot.Lib

/-! Marks for truncation searches around the words of each position:
`mod_bigram_truncation_search_support.c`. A `none` answer is `FAIL`. -/

def isKorean (c : UInt8) : Bool := 0xb0 ≤ c && c ≤ 0xc8

/-- The copy begins at `pos` in a Korean word. The bytes behind the terminator of `src` are
left out: they are only copied for a mark that is written over. -/
def bigramWordCopy (src : List UInt8) (pos : Nat) : List UInt8 :=
  if isKorean (src.headD 0) then (src.drop pos).take 2 else src.take (maxWordLen - 1)

def snprintf (first second : List UInt8) : List UInt8 := (first ++ second).take (maxWordLen - 1)

/-- `bigram_wrapper_t`. What `bigram` has still to deliver is the list of its batches. -/
structure Wrapper where
  bigram : List (List IndexWord)
  lastPosition : Nat
  lastIndexWord : IndexWord
  endOfExtraction : Bool

def noWord : IndexWord := { word := [], pos := 0, field := 0, len := 0, attr := 0 }

def bigramSetText2 (bigram : List (List IndexWord)) : Wrapper :=
  { bigram, lastPosition := 0, lastIndexWord := noWord, endOfExtraction := false }

/-- A loop over the batch: the words of the array that are written, and `idx`. -/
structure Scan where
  indexWord : List IndexWord
  idx : Nat
  lastPosition : Nat
  lastIndexWord : IndexWord

/-- Writing `index_word[idx]`. -/
def Scan.put (scan : Scan) (word : IndexWord) : Scan :=
  { scan with indexWord := scan.indexWord.take scan.idx ++ [word] }

def Scan.next (scan : Scan) : Scan := { scan with idx := scan.idx + 1 }

def beginOf (word : IndexWord) : IndexWord :=
  { word with word := snprintf [92, 60] (bigramWordCopy word.word 0), len := word.word.length }

/-- The copy for an end mark, of the second character where there is one. -/
def endCopy (word : IndexWord) : List UInt8 :=
  if 2 < word.len then bigramWordCopy word.word 2 else bigramWordCopy word.word 0

def endOf (word : IndexWord) : IndexWord :=
  { word with word := snprintf (endCopy word) [92, 62], len := word.word.length }

def lastOf (copied : List UInt8) (word : IndexWord) : IndexWord :=
  { word with word := snprintf copied [92, 62], len := (snprintf copied [92, 62]).length }

def isEnd (word : IndexWord) (rest : List IndexWord) : Bool :=
  rest.head?.any fun next => next.pos ≠ word.pos

def markLoop (max : Nat) : List IndexWord → Scan → Scan
  | [], scan => scan
  | word :: rest, scan =>
    if scan.idx < max then
      let isBegin := scan.lastPosition ≠ word.pos
      let begun := if isBegin then (scan.put (beginOf word)).next else scan
      if isBegin ∧ begun.idx = max then begun
      else
        let ended := if isEnd word rest then (begun.put (endOf word)).next else begun
        if isEnd word rest ∧ ended.idx = max then ended
        else markLoop max rest { ended with lastPosition := word.pos, lastIndexWord := word }
    else scan

def bigramGenerator2 (max : Nat) (wrapper : Wrapper) : Option (List IndexWord × Wrapper) :=
  if max ≤ 1 then none
  else
    let batch := wrapper.bigram.headD []
    let wrapper := { wrapper with bigram := wrapper.bigram.tail }
    match batch with
    | [] =>
      let last := wrapper.lastIndexWord
      let isOver := wrapper.endOfExtraction || last.len = 0
      if isOver then some ([], { wrapper with endOfExtraction := true })
      else some ([lastOf (endCopy last) last], { wrapper with endOfExtraction := true })
    | first :: rest =>
      let last := wrapper.lastIndexWord
      let scan : Scan :=
        { indexWord := first :: rest, idx := (first :: rest).length
          lastPosition := wrapper.lastPosition, lastIndexWord := last }
      -- the end mark of the batch before is written without a step of `idx`
      let scan :=
        if first.pos ≠ wrapper.lastPosition then
          scan.put (lastOf (bigramWordCopy last.word 2) last)
        else scan
      let scan := markLoop max (first :: rest) scan
      some (scan.indexWord.take scan.idx,
        { wrapper with lastPosition := scan.lastPosition, lastIndexWord := scan.lastIndexWord })

def beginMark (word : IndexWord) : IndexWord :=
  { beginOf word with len := (beginOf word).word.length }

def endMark (word : IndexWord) : IndexWord :=
  { word with word := endCopy word ++ [92, 62], len := (endCopy word ++ [92, 62]).length }

/-- A begin mark of the first word of each position, and an end mark of its last word. -/
def wanted : (before : List IndexWord) → List IndexWord → List IndexWord
  | _, [] => []
  | before, word :: behind =>
    (if ∀ other ∈ before, other.pos ≠ word.pos then [beginMark word] else []) ++
      ((if ∀ other ∈ behind, other.pos ≠ word.pos then [endMark word] else []) ++
        wanted (word :: before) behind)

def Complete (max : Nat) (batches : List (List IndexWord)) : Prop :=
  ∃ all, Drained (bigramGenerator2 max) max (bigramSetText2 batches) all ∧
    all.Perm (batches.flatten ++ wanted [] batches.flatten)

def changes : List IndexWord → List (IndexWord × IndexWord)
  | first :: second :: rest =>
    (if second.pos ≠ first.pos then [(first, second)] else []) ++ changes (second :: rest)
  | _ => []

def Measured (batch : List IndexWord) : Prop :=
  ∀ pair ∈ changes batch, (endMark pair.1).len = pair.1.len ∧ (beginMark pair.2).len = pair.2.len

/-- The batches behind a word go on with its position, and what they have of marks leaves
room. -/
def Follows (max : Nat) : IndexWord → List (List IndexWord) → Prop
  | last, [] => last.word ≠ [] ∧ (endMark last).len < maxWordLen
  | last, batch :: batches =>
    (∀ first ∈ batch.head?, first.pos = last.pos) ∧
      (changes batch = [] ∨ batch.length + 2 * (changes batch).length < max) ∧
        Measured batch ∧ Follows max (batch.getLastD last) batches

/-- No position is 0 or changes between two batches, the marks leave room in each batch, and
all marks but the last one are as long as their words. -/
def Clear (max : Nat) : List (List IndexWord) → Prop
  | [] => True
  | batch :: batches =>
    (∀ first ∈ batch.head?, first.pos ≠ 0 ∧ (beginMark first).len = first.len) ∧
      batch.length + 2 * (changes batch).length + 1 < max ∧
        Measured batch ∧ Follows max (batch.getLastD noWord) batches

structure Sound (word : IndexWord) : Prop where
  isLen : word.len = word.word.length
  short : word.word.length < maxWordLen

def origin (word : IndexWord) : Nat × Nat × UInt32 := (word.pos, word.field, word.attr)

section Marks

variable {word : IndexWord}

@[simp] theorem origin_beginOf : origin (beginOf word) = origin word := rfl
@[simp] theorem origin_endOf : origin (endOf word) = origin word := rfl

theorem beginOf_eq_iff (sound : Sound word) :
    beginOf word = beginMark word ↔ (beginMark word).len = word.len := by
  constructor
  · intro same
    rw [← same, sound.isLen]
    rfl
  · intro isLen
    rw [sound.isLen] at isLen
    rw [beginMark, show (beginOf word).word.length = word.word.length from isLen]
    rfl

theorem snprintf_short {first second : List UInt8}
    (short : (first ++ second).length < maxWordLen) : snprintf first second = first ++ second :=
  List.take_of_length_le (Nat.le_of_lt_succ short)

theorem length_snprintf_lt (first second : List UInt8) :
    (snprintf first second).length < maxWordLen := by
  rw [snprintf, List.length_take]
  exact (Nat.min_le_left _ _).trans_lt (by decide)

theorem endOf_eq_iff (sound : Sound word) :
    endOf word = endMark word ↔ (endMark word).len = word.len := by
  constructor
  · intro same
    rw [← same, sound.isLen]
    rfl
  · intro isLen
    rw [sound.isLen] at isLen
    have short : (endCopy word ++ [92, 62]).length < maxWordLen := isLen.trans_lt sound.short
    rw [endOf, endMark, snprintf_short short, ← isLen]
    rfl

theorem lastOf_eq_iff : lastOf (endCopy word) word = endMark word ↔
    (endMark word).len < maxWordLen := by
  constructor
  · intro same
    rw [← same]
    exact length_snprintf_lt _ _
  · intro short
    rw [lastOf, endMark, snprintf_short short]

theorem beginMark_word_ne (sound : Sound word) : (beginMark word).word ≠ (endMark word).word := by
  intro same
  have isSame : snprintf [92, 60] (bigramWordCopy word.word 0) = endCopy word ++ [92, 62] := same
  rw [endCopy] at isSame
  cases isKor : isKorean (word.word.headD 0) with
  | false =>
    have isCopy : ∀ pos, bigramWordCopy word.word pos = word.word := by
      intro pos
      rw [bigramWordCopy, isKor]
      exact List.take_of_length_le (Nat.le_of_lt_succ sound.short)
    rw [isCopy, isCopy, ite_self] at isSame
    have lengths := congrArg List.length isSame
    rw [snprintf, List.length_take, List.length_append, List.length_append] at lengths
    have short : ([92, 60] ++ word.word).length < maxWordLen := by
      simp only [List.length_append, List.length_cons, List.length_nil, maxWordLen] at lengths ⊢
      omega
    rw [snprintf_short short] at isSame
    have counts := congrArg (List.count 60) isSame
    rw [List.count_append, List.count_append] at counts
    have inBegin : List.count 60 ([92, 60] : List UInt8) = 1 := by decide
    have inEnd : List.count 60 ([92, 62] : List UInt8) = 0 := by decide
    omega
  | true =>
    have isCopy : ∀ pos, bigramWordCopy word.word pos = (word.word.drop pos).take 2 := by
      intro pos
      rw [bigramWordCopy, isKor]
      rfl
    rw [isCopy, isCopy] at isSame
    have notMarker : word.word.headD 0 ≠ 92 := by
      intro isMarker
      rw [isMarker] at isKor
      cases isKor
    have isLen := sound.isLen
    rcases isWord : word.word with _ | ⟨first, _ | ⟨second, _ | ⟨third, _ | ⟨fourth, rest⟩⟩⟩⟩
    all_goals rw [isWord] at isSame isKor isLen notMarker
    · cases isKor
    · rw [isLen] at isSame
      exact notMarker (List.cons.inj isSame).1.symm
    · rw [isLen] at isSame
      exact notMarker (List.cons.inj isSame).1.symm
    · rw [isLen] at isSame
      have lengths := congrArg List.length isSame
      cases lengths
    · have long : 2 < word.len := by
        rw [isLen]
        simp only [List.length_cons]
        omega
      rw [if_pos long] at isSame
      have atThird := congrArg (fun bytes : List UInt8 => bytes[2]?) isSame
      exact notMarker (Option.some.inj atThird)

theorem beginMark_ne_endMark (sound : Sound word) : beginMark word ≠ endMark word :=
  fun same => beginMark_word_ne sound (congrArg IndexWord.word same)

theorem beginOf_ne_endMark (sound : Sound word) : beginOf word ≠ endMark word :=
  fun same => beginMark_word_ne sound
    (congrArg IndexWord.word same : (beginOf word).word = (endMark word).word)

end Marks

def begins (last word : IndexWord) : List IndexWord :=
  if last.pos ≠ word.pos then [beginOf word] else []

def ends (word : IndexWord) (rest : List IndexWord) : List IndexWord :=
  if isEnd word rest then [endOf word] else []

/-- The marks of a batch in the room behind it, and the word that is remembered. -/
def scanned : (room : Nat) → (last : IndexWord) → List IndexWord → List IndexWord × IndexWord
  | _, last, [] => ([], last)
  | room, last, word :: rest =>
    if begins last word ≠ [] ∧ room ≤ 1 then (begins last word, last)
    else if ends word rest ≠ [] ∧ room - (begins last word).length ≤ 1 then
      (begins last word ++ ends word rest, last)
    else
      let more := scanned (room - (begins last word).length - (ends word rest).length) word rest
      (begins last word ++ (ends word rest ++ more.1), more.2)

def marked (max : Nat) : (last : IndexWord) → List (List IndexWord) → List IndexWord
  | last, [] => if last.len = 0 then [] else [lastOf (endCopy last) last]
  | last, batch :: batches =>
    let scan := scanned (max - batch.length) last batch
    scan.1 ++ marked max scan.2 batches

section Calls

variable {max : Nat}

def Scan.found (scan : Scan) : List IndexWord := scan.indexWord.take scan.idx

theorem Scan.found_put {scan : Scan} (within : scan.idx ≤ scan.indexWord.length)
    (word : IndexWord) :
    (scan.put word).next.found = scan.found ++ [word] ∧
      (scan.put word).next.idx ≤ (scan.put word).next.indexWord.length := by
  have isLength : (scan.indexWord.take scan.idx ++ [word]).length = scan.idx + 1 := by
    rw [List.length_append, List.length_take, Nat.min_eq_left within, List.length_singleton]
  constructor
  · show (scan.indexWord.take scan.idx ++ [word]).take (scan.idx + 1) = _
    rw [← isLength, List.take_length]
    rfl
  · exact isLength.ge

/-- A loop that has made such marks, with such a last word. -/
structure Made (max : Nat) (found : List IndexWord) (made : List IndexWord × IndexWord)
    (scan : Scan) : Prop where
  isFound : scan.found = found ++ made.1
  isLast : scan.lastIndexWord = made.2
  inStep : scan.lastPosition = made.2.pos
  inRange : scan.idx ≤ max

theorem markLoop_made {words : List IndexWord} {scan : Scan} {room : Nat}
    (isRoom : scan.idx + room = max) (hasRoom : 0 < room)
    (within : scan.idx ≤ scan.indexWord.length)
    (inStep : scan.lastPosition = scan.lastIndexWord.pos) :
    Made max scan.found (scanned room scan.lastIndexWord words) (markLoop max words scan) := by
  induction words generalizing scan room with
  | nil => exact ⟨(List.append_nil _).symm, rfl, inStep, isRoom ▸ Nat.le_add_right _ _⟩
  | cons word rest ih =>
    have inRange : scan.idx < max := by omega
    have goesOn : ∀ {ended : Scan} {left : Nat} {made : List IndexWord},
        ended.found = scan.found ++ made → ended.idx + left = max → 0 < left →
        ended.idx ≤ ended.indexWord.length →
        Made max scan.found (made ++ (scanned left word rest).1, (scanned left word rest).2)
          (markLoop max rest { ended with lastPosition := word.pos, lastIndexWord := word }) := by
      intro ended left made isMade isLeft hasLeft isWithin
      have others := @ih { ended with lastPosition := word.pos, lastIndexWord := word } _
        isLeft hasLeft isWithin rfl
      refine ⟨?_, others.isLast, others.inStep, others.inRange⟩
      rw [others.isFound, ← List.append_assoc, ← isMade]
      rfl
    have ending : ∀ {begun : Scan} {left : Nat} {started : List IndexWord},
        begun.found = scan.found ++ started → begun.idx + left = max → 0 < left →
        begun.idx ≤ begun.indexWord.length → begun.lastIndexWord = scan.lastIndexWord →
        begun.lastPosition = scan.lastPosition →
        Made max scan.found
          (if (if isEnd word rest then [endOf word] else []) ≠ [] ∧ left ≤ 1 then
            (started ++ if isEnd word rest then [endOf word] else [], scan.lastIndexWord)
          else
            (started ++ ((if isEnd word rest then [endOf word] else []) ++
              (scanned (left - (if isEnd word rest then [endOf word] else []).length) word
                rest).1),
              (scanned (left - (if isEnd word rest then [endOf word] else []).length) word
                rest).2))
          (if isEnd word rest ∧
              (if isEnd word rest then (begun.put (endOf word)).next else begun).idx = max then
            if isEnd word rest then (begun.put (endOf word)).next else begun
          else
            markLoop max rest
              { (if isEnd word rest then (begun.put (endOf word)).next else begun) with
                lastPosition := word.pos, lastIndexWord := word }) := by
      intro begun left started isMade isLeft hasLeft isWithin sameWord samePosition
      cases isEnding : isEnd word rest with
      | false =>
        simp only [ne_eq, not_true_eq_false, false_and, if_false,
          Bool.false_eq_true, List.nil_append, List.length_nil, Nat.sub_zero]
        exact goesOn isMade isLeft hasLeft isWithin
      | true =>
        obtain ⟨isEnded, endsWithin⟩ := Scan.found_put isWithin (endOf word)
        rw [isMade, List.append_assoc] at isEnded
        simp only [if_true]
        by_cases full : left ≤ 1
        · have isMax : (begun.put (endOf word)).next.idx = max := by
            show begun.idx + 1 = max
            omega
          rw [if_pos ⟨List.cons_ne_nil _ _, full⟩, if_pos ⟨trivial, isMax⟩]
          exact ⟨isEnded, sameWord, samePosition.trans inStep, isMax.le⟩
        · have notMax : (begun.put (endOf word)).next.idx ≠ max := by
            show begun.idx + 1 ≠ max
            omega
          rw [if_neg (show ¬ ([endOf word] ≠ [] ∧ left ≤ 1) from fun never => full never.2),
            if_neg (fun never => notMax never.2), ← List.append_assoc]
          refine goesOn isEnded ?_ (by rw [List.length_singleton]; omega) endsWithin
          show begun.idx + 1 + (left - 1) = max
          omega
    rw [markLoop, if_pos inRange, scanned]
    simp only [begins, ends, ← inStep]
    by_cases isBegin : scan.lastPosition ≠ word.pos
    · obtain ⟨isBegun, beginsWithin⟩ := Scan.found_put within (beginOf word)
      simp only [if_pos isBegin]
      by_cases full : room ≤ 1
      · have isMax : (scan.put (beginOf word)).next.idx = max := by
          show scan.idx + 1 = max
          omega
        rw [if_pos ⟨List.cons_ne_nil _ _, full⟩, if_pos ⟨isBegin, isMax⟩]
        exact ⟨isBegun, rfl, inStep, isMax.le⟩
      · have notMax : ¬ (scan.lastPosition ≠ word.pos ∧
            (scan.put (beginOf word)).next.idx = max) := by
          rintro ⟨_, isMax⟩
          have isNext : scan.idx + 1 = max := isMax
          omega
        have notFull : ¬ ([beginOf word] ≠ [] ∧ room ≤ 1) := fun never => full never.2
        rw [if_neg notFull, if_neg notMax]
        refine ending isBegun ?_ ?_ beginsWithin rfl rfl
        · show scan.idx + 1 + (room - 1) = max
          omega
        · rw [List.length_singleton]
          omega
    · simp only [if_neg isBegin]
      have notFull : ¬ (([] : List IndexWord) ≠ [] ∧ room ≤ 1) := fun never => never.1 rfl
      have notMax : ¬ (scan.lastPosition ≠ word.pos ∧ scan.idx = max) :=
        fun never => isBegin never.1
      rw [if_neg notFull, if_neg notMax]
      exact ending (List.append_nil _).symm isRoom hasRoom within rfl rfl

def answers (max : Nat) : (last : IndexWord) → List (List IndexWord) → List IndexWord
  | last, [] => if last.len = 0 then [] else [lastOf (endCopy last) last]
  | last, batch :: batches =>
    let scan := scanned (max - batch.length) last batch
    (batch ++ scan.1) ++ answers max scan.2 batches

def Delivered (max : Nat) (batches : List (List IndexWord)) : Prop :=
  ∀ batch ∈ batches, batch ≠ [] ∧ batch.length ≤ max / 2

theorem bigramGenerator2_batch {first last : IndexWord} {rest : List IndexWord}
    {batches : List (List IndexWord)} (enough : 1 < max)
    (half : (first :: rest).length ≤ max / 2) :
    ∃ answer, bigramGenerator2 max
        { bigram := (first :: rest) :: batches, lastPosition := last.pos, lastIndexWord := last
          endOfExtraction := false } =
        some (answer,
          { bigram := batches
            lastPosition := (scanned (max - (first :: rest).length) last (first :: rest)).2.pos
            lastIndexWord := (scanned (max - (first :: rest).length) last (first :: rest)).2
            endOfExtraction := false }) ∧
      answer = (first :: rest) ++ (scanned (max - (first :: rest).length) last (first :: rest)).1 ∧
      answer.length ≤ max := by
  have isMore : ¬ max ≤ 1 := by omega
  obtain ⟨scan, isScan⟩ : ∃ scan : Scan,
      (if first.pos ≠ last.pos then
        ({ indexWord := first :: rest, idx := (first :: rest).length, lastPosition := last.pos
           lastIndexWord := last } : Scan).put (lastOf (bigramWordCopy last.word 2) last)
      else
        { indexWord := first :: rest, idx := (first :: rest).length, lastPosition := last.pos
          lastIndexWord := last }) = scan := ⟨_, rfl⟩
  have parts : scan.found = first :: rest ∧ scan.idx = (first :: rest).length ∧
      scan.idx ≤ scan.indexWord.length ∧ scan.lastPosition = last.pos ∧
        scan.lastIndexWord = last := by
    rw [← isScan]
    split
    · refine ⟨?_, rfl, ?_, rfl, rfl⟩
      · show ((first :: rest).take (first :: rest).length ++ [_]).take (first :: rest).length = _
        rw [List.take_length, List.take_left]
      · show (first :: rest).length ≤ ((first :: rest).take (first :: rest).length ++ [_]).length
        rw [List.take_length, List.length_append]
        exact Nat.le_add_right _ _
    · exact ⟨List.take_length, rfl, le_refl _, rfl, rfl⟩
  obtain ⟨isFound, isIdx, within, isPosition, isLast⟩ := parts
  have hasRoom : 0 < max - (first :: rest).length := by omega
  have isRoom : scan.idx + (max - (first :: rest).length) = max := by
    rw [isIdx]
    omega
  have made := @markLoop_made _ (first :: rest) _ _ isRoom hasRoom within
    (by rw [isPosition, isLast])
  rw [isFound, isLast] at made
  refine ⟨_, ?_, made.isFound, ?_⟩
  · rw [bigramGenerator2, if_neg isMore]
    simp only [List.headD_cons, List.tail_cons]
    rw [isScan, made.inStep, made.isLast]
    rfl
  · rw [Scan.found, List.length_take]
    exact (Nat.min_le_left _ _).trans made.inRange

theorem drained_answers {last : IndexWord} {batches : List (List IndexWord)} (enough : 1 < max)
    (delivered : Delivered max batches) :
    Drained (bigramGenerator2 max) max
      { bigram := batches, lastPosition := last.pos, lastIndexWord := last
        endOfExtraction := false } (answers max last batches) := by
  induction batches generalizing last with
  | nil =>
    have isMore : ¬ max ≤ 1 := by omega
    have isOver : bigramGenerator2 max
        { bigram := [], lastPosition := last.pos, lastIndexWord := last
          endOfExtraction := true } =
        some ([], { bigram := [], lastPosition := last.pos, lastIndexWord := last
                    endOfExtraction := true }) := by
      rw [bigramGenerator2, if_neg isMore]
      rfl
    by_cases isEmpty : last.len = 0
    · rw [answers, if_pos isEmpty]
      have called : bigramGenerator2 max
          { bigram := [], lastPosition := last.pos, lastIndexWord := last
            endOfExtraction := false } =
          some ([], { bigram := [], lastPosition := last.pos, lastIndexWord := last
                      endOfExtraction := true }) := by
        rw [bigramGenerator2, if_neg isMore]
        simp [isEmpty]
      exact .last called
    · rw [answers, if_neg isEmpty, ← List.append_nil [lastOf _ _]]
      refine .more ?_ (List.cons_ne_nil _ _) enough.le (.last isOver)
      rw [bigramGenerator2, if_neg isMore]
      simp [isEmpty]
  | cons batch batches ih =>
    obtain ⟨notEmpty, half⟩ := delivered batch List.mem_cons_self
    obtain ⟨first, rest, rfl⟩ := List.exists_cons_of_ne_nil notEmpty
    obtain ⟨answer, called, isAnswer, short⟩ :=
      @bigramGenerator2_batch _ _ last _ batches enough half
    rw [answers, ← isAnswer]
    have isMore : answer ≠ [] := by
      rw [isAnswer, List.cons_append]
      exact List.cons_ne_nil _ _
    exact .more called isMore short
      (ih fun other within => delivered other (List.mem_cons_of_mem _ within))

theorem answers_perm (last : IndexWord) (batches : List (List IndexWord)) :
    (answers max last batches).Perm (batches.flatten ++ marked max last batches) := by
  induction batches generalizing last with
  | nil => exact List.Perm.refl _
  | cons batch batches ih =>
    rw [answers, marked, List.flatten_cons, List.append_assoc, List.append_assoc]
    refine List.Perm.append_left _ ?_
    exact ((ih _).append_left _).trans (List.perm_append_comm_assoc _ _ _)

theorem complete_iff {batches : List (List IndexWord)} (delivered : Delivered max batches) :
    Complete max batches ↔
      1 < max ∧ (marked max noWord batches).Perm (wanted [] batches.flatten) := by
  by_cases enough : 1 < max
  · have drained := @drained_answers _ noWord _ enough delivered
    constructor
    · rintro ⟨all, isDrained, isPerm⟩
      rw [Drained.unique isDrained drained] at isPerm
      exact ⟨enough, (List.perm_append_left_iff _).mp
        ((answers_perm noWord batches).symm.trans isPerm)⟩
    · rintro ⟨_, isPerm⟩
      exact ⟨_, drained, (answers_perm noWord batches).trans (isPerm.append_left _)⟩
  · refine iff_of_false ?_ fun both => enough both.1
    rintro ⟨all, isDrained, _⟩
    refine drained_none ?_ all isDrained
    rw [bigramGenerator2, if_pos (Nat.le_of_not_lt enough)]

end Calls

def wantedAt : (before : Option IndexWord) → List IndexWord → List IndexWord
  | _, [] => []
  | before, word :: behind =>
    (if ∀ other ∈ before, other.pos ≠ word.pos then [beginMark word] else []) ++
      ((if ∀ other ∈ behind.head?, other.pos ≠ word.pos then [endMark word] else []) ++
        wantedAt (some word) behind)

def marksOf : (last : IndexWord) → List IndexWord → List IndexWord
  | _, [] => []
  | last, word :: rest =>
    begins last word ++ (ends word rest ++ marksOf word rest)

section Neighbours

theorem wanted_eq_wantedAt {before words : List IndexWord}
    (behind : words.Pairwise fun first second => first.pos ≤ second.pos)
    (ahead : before.Pairwise fun first second => second.pos ≤ first.pos)
    (between : ∀ other ∈ before, ∀ word ∈ words, other.pos ≤ word.pos) :
    wanted before words = wantedAt before.head? words := by
  induction words generalizing before with
  | nil => rfl
  | cons word words ih =>
    obtain ⟨atMost, rest⟩ := List.pairwise_cons.mp behind
    have isFirst : (∀ other ∈ before, other.pos ≠ word.pos) ↔
        ∀ other ∈ before.head?, other.pos ≠ word.pos := by
      cases before with
      | nil =>
        exact iff_of_true (fun other never => by cases never) fun other never => by cases never
      | cons latest before =>
        constructor
        · intro all other isHead
          cases isHead
          exact all latest List.mem_cons_self
        · intro notLatest other within same
          have isLatest := notLatest latest rfl
          have below := between latest List.mem_cons_self word List.mem_cons_self
          rcases List.mem_cons.mp within with rfl | within
          · exact isLatest same
          · have further := (List.pairwise_cons.mp ahead).1 other within
            omega
    have isLast : (∀ other ∈ words, other.pos ≠ word.pos) ↔
        ∀ other ∈ words.head?, other.pos ≠ word.pos := by
      cases words with
      | nil =>
        exact iff_of_true (fun other never => by cases never) fun other never => by cases never
      | cons next words =>
        constructor
        · intro all other isHead
          cases isHead
          exact all next List.mem_cons_self
        · intro notNext other within same
          have isNext := notNext next rfl
          have above := atMost next List.mem_cons_self
          rcases List.mem_cons.mp within with rfl | within
          · exact isNext same
          · have further := (List.pairwise_cons.mp rest).1 other within
            omega
    have isAhead : (word :: before).Pairwise fun first second => second.pos ≤ first.pos :=
      List.pairwise_cons.mpr
        ⟨fun other within => between other within word List.mem_cons_self, ahead⟩
    have isBetween : ∀ other ∈ word :: before, ∀ next ∈ words, other.pos ≤ next.pos := by
      intro other within next inWords
      rcases List.mem_cons.mp within with rfl | within
      · exact atMost next inWords
      · exact between other within next (List.mem_cons_of_mem _ inWords)
    rw [wanted, wantedAt, ih rest isAhead isBetween]
    simp only [isFirst, isLast]
    rfl

theorem isEnd_cons_iff {word next : IndexWord} {rest : List IndexWord} :
    isEnd word (next :: rest) = true ↔ next.pos ≠ word.pos := decide_eq_true_iff

theorem length_begins (last word : IndexWord) :
    (begins last word).length = if last.pos ≠ word.pos then 1 else 0 := by
  rw [begins]
  split
  · rfl
  · rfl

theorem length_begins_le (last word : IndexWord) : (begins last word).length ≤ 1 := by
  rw [length_begins]
  split
  · exact le_refl _
  · exact Nat.zero_le _

theorem length_ends_le (word : IndexWord) (rest : List IndexWord) :
    (ends word rest).length ≤ 1 := by
  rw [ends]
  split
  · exact le_refl _
  · exact Nat.zero_le _

theorem length_marksOf (last word : IndexWord) (rest : List IndexWord) :
    (marksOf last (word :: rest)).length =
      (if last.pos ≠ word.pos then 1 else 0) + 2 * (changes (word :: rest)).length := by
  induction rest generalizing last word with
  | nil =>
    rw [marksOf, List.length_append, length_begins]
    rfl
  | cons next rest ih =>
    rw [marksOf, List.length_append, List.length_append, ih, changes, List.length_append,
      length_begins, ends]
    by_cases isChange : next.pos ≠ word.pos
    · have isOther : word.pos ≠ next.pos := Ne.symm isChange
      rw [if_pos (isEnd_cons_iff.mpr isChange), if_pos isChange, if_pos isOther,
        List.length_singleton, List.length_singleton]
      omega
    · have isSame : ¬ word.pos ≠ next.pos := fun never => isChange (Ne.symm never)
      rw [if_neg (fun never => isChange (isEnd_cons_iff.mp never)), if_neg isChange,
        if_neg isSame, List.length_nil, List.length_nil]
      omega

def Fits (room : Nat) (last : IndexWord) (words : List IndexWord) : Prop :=
  marksOf last words = [] ∨ (marksOf last words).length < room

theorem scanned_fits {room : Nat} {last : IndexWord} {words : List IndexWord}
    (hasRoom : 0 < room) (fits : Fits room last words) :
    scanned room last words = (marksOf last words, words.getLastD last) := by
  induction words generalizing room last with
  | nil => rfl
  | cons word rest ih =>
    rw [scanned, marksOf, List.getLastD_cons]
    rw [Fits, marksOf] at fits
    generalize begins last word = begun at fits ⊢
    generalize ends word rest = ended at fits ⊢
    have isShort : begun ++ (ended ++ marksOf word rest) = [] ∨
        begun.length + (ended.length + (marksOf word rest).length) < room := by
      rcases fits with none | short
      · exact .inl none
      · rw [List.length_append, List.length_append] at short
        exact .inr short
    have noneBegins : ¬ (begun ≠ [] ∧ room ≤ 1) := by
      rintro ⟨notEmpty, full⟩
      have positive := List.length_pos_iff.mpr notEmpty
      rcases isShort with none | short
      · exact notEmpty (List.append_eq_nil_iff.mp none).1
      · omega
    have noneEnds : ¬ (ended ≠ [] ∧ room - begun.length ≤ 1) := by
      rintro ⟨notEmpty, full⟩
      have positive := List.length_pos_iff.mpr notEmpty
      rcases isShort with none | short
      · exact notEmpty (List.append_eq_nil_iff.mp (List.append_eq_nil_iff.mp none).2).1
      · omega
    have isLeft : 0 < room - begun.length - ended.length ∧
        Fits (room - begun.length - ended.length) word rest := by
      rcases isShort with none | short
      · obtain ⟨rfl, others⟩ := List.append_eq_nil_iff.mp none
        obtain ⟨rfl, isNone⟩ := List.append_eq_nil_iff.mp others
        exact ⟨hasRoom, .inl isNone⟩
      · exact ⟨by omega, .inr (by omega)⟩
    simp only [if_neg noneBegins, if_neg noneEnds, ih isLeft.1 isLeft.2]

/-- The end mark of a word where it is the last one of its position. -/
def closing (word : IndexWord) (behind : List IndexWord) : List IndexWord :=
  if ∀ other ∈ behind.head?, other.pos ≠ word.pos then [endMark word] else []

def Exact (batch : List IndexWord) : Prop :=
  ∀ pair ∈ changes batch, endOf pair.1 = endMark pair.1 ∧ beginOf pair.2 = beginMark pair.2

theorem wantedAt_append {before : Option IndexWord} {last word : IndexWord}
    {rest behind : List IndexWord}
    (inStep : (∀ other ∈ before, other.pos ≠ word.pos) ↔ last.pos ≠ word.pos)
    (isMark : last.pos ≠ word.pos → beginOf word = beginMark word) (exact : Exact (word :: rest)) :
    wantedAt before (word :: rest ++ behind) =
      marksOf last (word :: rest) ++ (closing (rest.getLastD word) behind ++
        wantedAt (some (rest.getLastD word)) behind) := by
  have isBegin : (if ∀ other ∈ before, other.pos ≠ word.pos then [beginMark word] else []) =
      begins last word := by
    simp only [inStep, begins]
    split
    case isTrue isChange => rw [isMark isChange]
    case isFalse => rfl
  induction rest generalizing before last word with
  | nil =>
    rw [List.cons_append, wantedAt, isBegin, marksOf, List.append_assoc]
    rfl
  | cons next rest ih =>
    have inside : ∀ pair ∈ changes (next :: rest), pair ∈ changes (word :: next :: rest) :=
      fun pair within => List.mem_append_right _ within
    have isNext : (∀ other ∈ some word, other.pos ≠ next.pos) ↔ word.pos ≠ next.pos := by
      constructor
      · exact fun all => all word rfl
      · rintro isChange other isOther
        cases isOther
        exact isChange
    have pairs : word.pos ≠ next.pos →
        endOf word = endMark word ∧ beginOf next = beginMark next := by
      intro isChange
      refine exact (word, next) (List.mem_append_left _ ?_)
      rw [if_pos fun same => isChange same.symm]
      exact List.mem_singleton_self _
    have isEnds : (if ∀ other ∈ (next :: rest ++ behind).head?, other.pos ≠ word.pos then
        [endMark word] else []) = ends word (next :: rest) := by
      rw [ends]
      by_cases isChange : next.pos ≠ word.pos
      · have all : ∀ other ∈ (next :: rest ++ behind).head?, other.pos ≠ word.pos := by
          intro other isOther
          cases isOther
          exact isChange
        rw [if_pos all, if_pos (isEnd_cons_iff.mpr isChange), (pairs (Ne.symm isChange)).1]
      · rw [if_neg fun all => isChange (all next rfl),
          if_neg fun never => isChange (isEnd_cons_iff.mp never)]
    have isRest := @ih (some word) word next isNext
      (fun isChange => (pairs isChange).2) (fun pair within => exact pair (inside pair within)) ?_
    · have isMarks : marksOf last (word :: next :: rest) =
          begins last word ++ (ends word (next :: rest) ++ marksOf word (next :: rest)) := rfl
      rw [List.cons_append, wantedAt, isBegin, isEnds, isRest, isMarks, List.getLastD_cons,
        List.append_assoc, List.append_assoc]
    · simp only [isNext, begins]
      split
      case isTrue isChange => rw [(pairs isChange).2]
      case isFalse => rfl

theorem mem_of_changes {batch : List IndexWord} {pair : IndexWord × IndexWord}
    (within : pair ∈ changes batch) : pair.1 ∈ batch ∧ pair.2 ∈ batch := by
  induction batch with
  | nil => cases within
  | cons first batch ih =>
    cases batch with
    | nil => cases within
    | cons second batch =>
      rcases List.mem_append.mp within with isFirst | isLater
      · split at isFirst
        · rw [List.mem_singleton.mp isFirst]
          exact ⟨List.mem_cons_self, List.mem_cons_of_mem _ List.mem_cons_self⟩
        · cases isFirst
      · obtain ⟨one, other⟩ := ih isLater
        exact ⟨List.mem_cons_of_mem _ one, List.mem_cons_of_mem _ other⟩

theorem Measured.exact {batch : List IndexWord} (measured : Measured batch)
    (sounds : ∀ word ∈ batch, Sound word) : Exact batch := by
  intro pair within
  have inside : pair.1 ∈ batch ∧ pair.2 ∈ batch := mem_of_changes within
  exact ⟨(endOf_eq_iff (sounds _ inside.1)).mpr (measured pair within).1,
    (beginOf_eq_iff (sounds _ inside.2)).mpr (measured pair within).2⟩

theorem fits_of_room {max : Nat} {last first : IndexWord} {rest : List IndexWord}
    (room : (if last.pos ≠ first.pos then 1 else 0) + 2 * (changes (first :: rest)).length = 0 ∨
      (first :: rest).length + 2 * (changes (first :: rest)).length +
        (if last.pos ≠ first.pos then 1 else 0) < max) :
    Fits (max - (first :: rest).length) last (first :: rest) := by
  rw [Fits, ← List.length_eq_zero_iff, length_marksOf]
  omega

theorem marked_follows {max : Nat} {last : IndexWord} {batches : List (List IndexWord)}
    (delivered : Delivered max batches) (enough : 1 < max) (sound : Sound last)
    (sounds : ∀ word ∈ batches.flatten, Sound word) (follows : Follows max last batches) :
    marked max last batches =
      closing last batches.flatten ++ wantedAt (some last) batches.flatten := by
  induction batches generalizing last with
  | nil =>
    obtain ⟨notEmpty, short⟩ := follows
    have isLen : last.len ≠ 0 := by
      rw [sound.isLen]
      exact fun none => notEmpty (List.length_eq_zero_iff.mp none)
    rw [marked, if_neg isLen, lastOf_eq_iff.mpr short]
    rfl
  | cons batch batches ih =>
    obtain ⟨joined, room, measured, follows⟩ := follows
    obtain ⟨notEmpty, half⟩ := delivered batch List.mem_cons_self
    obtain ⟨first, rest, rfl⟩ := List.exists_cons_of_ne_nil notEmpty
    have samePos : first.pos = last.pos := joined first rfl
    have noBegin : ¬ last.pos ≠ first.pos := fun never => never samePos.symm
    have hasRoom : 0 < max - (first :: rest).length := by omega
    have fits : Fits (max - (first :: rest).length) last (first :: rest) := by
      refine fits_of_room ?_
      rw [if_neg noBegin]
      rcases room with none | short
      · rw [none]
        exact .inl rfl
      · exact .inr short
    have inBatch : ∀ word ∈ first :: rest, Sound word :=
      fun word within => sounds word (List.mem_append_left _ within)
    have isLast : Sound (rest.getLastD first) := inBatch _ List.getLastD_mem_cons
    have others := @ih (rest.getLastD first)
      (fun other within => delivered other (List.mem_cons_of_mem _ within)) isLast
      (fun word within => sounds word (List.mem_append_right _ within))
      (by rwa [List.getLastD_cons] at follows)
    have noClosing : closing last ((first :: rest) :: batches).flatten = [] :=
      if_neg fun all => all first rfl samePos
    have inStep : (∀ other ∈ some last, other.pos ≠ first.pos) ↔ last.pos ≠ first.pos := by
      constructor
      · exact fun all => all last rfl
      · exact fun never => absurd never noBegin
    rw [marked, scanned_fits hasRoom fits, noClosing, List.flatten_cons, List.nil_append,
      wantedAt_append inStep (fun never => absurd never noBegin) (measured.exact inBatch),
      List.getLastD_cons]
    exact congrArg _ others

theorem marked_clear {max : Nat} {batches : List (List IndexWord)}
    (delivered : Delivered max batches) (enough : 1 < max)
    (sounds : ∀ word ∈ batches.flatten, Sound word) (clear : Clear max batches) :
    marked max noWord batches = wantedAt none batches.flatten := by
  cases batches with
  | nil => rfl
  | cons batch batches =>
    obtain ⟨opens, room, measured, follows⟩ := clear
    obtain ⟨notEmpty, half⟩ := delivered batch List.mem_cons_self
    obtain ⟨first, rest, rfl⟩ := List.exists_cons_of_ne_nil notEmpty
    obtain ⟨notZero, isLen⟩ := opens first rfl
    have isBegin : noWord.pos ≠ first.pos := Ne.symm notZero
    have hasRoom : 0 < max - (first :: rest).length := by omega
    have fits : Fits (max - (first :: rest).length) noWord (first :: rest) := by
      refine fits_of_room (.inr ?_)
      rw [if_pos isBegin]
      exact room
    have inBatch : ∀ word ∈ first :: rest, Sound word :=
      fun word within => sounds word (List.mem_append_left _ within)
    have isFirst : beginOf first = beginMark first :=
      (beginOf_eq_iff (inBatch first List.mem_cons_self)).mpr isLen
    have others := marked_follows
      (fun other within => delivered other (List.mem_cons_of_mem _ within)) enough
      (inBatch (rest.getLastD first) List.getLastD_mem_cons)
      (fun word within => sounds word (List.mem_append_right _ within))
      (by rwa [List.getLastD_cons] at follows)
    have inStep : (∀ other ∈ (none : Option IndexWord), other.pos ≠ first.pos) ↔
        noWord.pos ≠ first.pos :=
      iff_of_true (fun other never => by cases never) isBegin
    rw [marked, scanned_fits hasRoom fits, List.flatten_cons,
      wantedAt_append inStep (fun _ => isFirst) (measured.exact inBatch), List.getLastD_cons]
    exact congrArg _ others

end Neighbours

section Apart

variable {max room : Nat} {before : Option IndexWord} {last word mark : IndexWord}
  {words rest : List IndexWord} {batches : List (List IndexWord)}

theorem mem_begins : mark ∈ begins last word ↔ mark = beginOf word ∧ last.pos ≠ word.pos := by
  rw [begins]
  split
  case isTrue isChange => exact List.mem_singleton.trans (and_iff_left isChange).symm
  case isFalse noChange =>
    exact iff_of_false (fun never => by cases never) fun never => noChange never.2

theorem mem_ends : mark ∈ ends word rest ↔ mark = endOf word ∧ isEnd word rest = true := by
  rw [ends]
  split
  case isTrue isChange => exact List.mem_singleton.trans (and_iff_left isChange).symm
  case isFalse noChange =>
    exact iff_of_false (fun never => by cases never) fun never => noChange never.2

theorem mem_wantedAt_cons : mark ∈ wantedAt before (word :: rest) ↔
    (mark = beginMark word ∧ ∀ other ∈ before, other.pos ≠ word.pos) ∨
      (mark = endMark word ∧ ∀ other ∈ rest.head?, other.pos ≠ word.pos) ∨
        mark ∈ wantedAt (some word) rest := by
  have one : ∀ {which : IndexWord} {condition : Prop} [Decidable condition],
      mark ∈ (if condition then [which] else []) ↔ mark = which ∧ condition := by
    intro which condition _
    split
    case isTrue holds => exact List.mem_singleton.trans (and_iff_left holds).symm
    case isFalse fails =>
      exact iff_of_false (fun never => by cases never) fun never => fails never.2
  rw [wantedAt, List.mem_append, List.mem_append, one, one]

theorem origin_of_begins (isMark : mark ∈ begins last word) : origin mark = origin word := by
  rw [(mem_begins.mp isMark).1, origin_beginOf]

theorem origin_of_ends (isMark : mark ∈ ends word rest) : origin mark = origin word := by
  rw [(mem_ends.mp isMark).1, origin_endOf]

theorem origin_of_scanned (isMark : mark ∈ (scanned room last words).1) :
    origin mark ∈ words.map origin := by
  induction words generalizing room last with
  | nil => cases isMark
  | cons word rest ih =>
    rw [scanned] at isMark
    rw [List.map_cons, List.mem_cons]
    split at isMark
    · exact .inl (origin_of_begins isMark)
    · split at isMark
      · exact .inl ((List.mem_append.mp isMark).elim origin_of_begins origin_of_ends)
      · rcases List.mem_append.mp isMark with isBegin | isMark
        · exact .inl (origin_of_begins isBegin)
        · rcases List.mem_append.mp isMark with isEnd | isMark
          · exact .inl (origin_of_ends isEnd)
          · exact .inr (ih isMark)

theorem scanned_last (room : Nat) (last : IndexWord) (words : List IndexWord) :
    (scanned room last words).2 = last ∨ (scanned room last words).2 ∈ words := by
  induction words generalizing room last with
  | nil => exact .inl rfl
  | cons word rest ih =>
    rw [scanned]
    split
    · exact .inl rfl
    · split
      · exact .inl rfl
      · rcases ih _ word with isWord | within
        · exact .inr (List.mem_cons.mpr (.inl isWord))
        · exact .inr (List.mem_cons_of_mem _ within)

theorem origin_of_marked (isMark : mark ∈ marked max last batches) :
    origin mark ∈ batches.flatten.map origin ∨ origin mark = origin last ∧ last.len ≠ 0 := by
  induction batches generalizing last with
  | nil =>
    rw [marked] at isMark
    split at isMark
    · cases isMark
    case isFalse notEmpty =>
      rw [List.mem_singleton.mp isMark]
      exact .inr ⟨rfl, notEmpty⟩
  | cons batch batches ih =>
    rw [List.flatten_cons, List.map_append, List.mem_append]
    rcases List.mem_append.mp isMark with isScanned | isMark
    · exact .inl (.inl (origin_of_scanned isScanned))
    · rcases ih isMark with within | ⟨isLast, notEmpty⟩
      · exact .inl (.inr within)
      · rcases scanned_last (max - batch.length) last batch with same | within
        · rw [same] at isLast notEmpty
          exact .inr ⟨isLast, notEmpty⟩
        · exact .inl (.inl (isLast ▸ List.mem_map_of_mem within))

theorem origin_of_wantedAt (isMark : mark ∈ wantedAt before words) :
    origin mark ∈ words.map origin := by
  induction words generalizing before with
  | nil => cases isMark
  | cons word rest ih =>
    rw [List.map_cons, List.mem_cons]
    rcases mem_wantedAt_cons.mp isMark with ⟨rfl, _⟩ | ⟨rfl, _⟩ | isMark
    · exact .inl rfl
    · exact .inl rfl
    · exact .inr (ih isMark)

theorem mem_scanned_of_begins (isMark : mark ∈ begins last word) :
    mark ∈ (scanned room last (word :: rest)).1 := by
  rw [scanned]
  split
  · exact isMark
  · split
    · exact List.mem_append_left _ isMark
    · exact List.mem_append_left _ isMark

theorem exists_closing {behind : List IndexWord}
    (change : ∀ other ∈ behind.head?, other.pos ≠ word.pos) :
    ∃ closed ∈ word :: rest, endMark closed ∈ wantedAt before (word :: rest ++ behind) := by
  induction rest generalizing before word with
  | nil => exact ⟨word, List.mem_cons_self, mem_wantedAt_cons.mpr (.inr (.inl ⟨rfl, change⟩))⟩
  | cons next rest ih =>
    by_cases isChange : next.pos ≠ word.pos
    · have isLast : ∀ other ∈ (next :: rest ++ behind).head?, other.pos ≠ word.pos := by
        intro other isOther
        cases isOther
        exact isChange
      exact ⟨word, List.mem_cons_self, mem_wantedAt_cons.mpr (.inr (.inl ⟨rfl, isLast⟩))⟩
    · rw [ne_eq, not_not] at isChange
      obtain ⟨closed, within, isWanted⟩ := @ih (some word) next
        (by rw [isChange]; exact change)
      exact ⟨closed, List.mem_cons_of_mem _ within,
        mem_wantedAt_cons.mpr (.inr (.inr isWanted))⟩

theorem eq_endMark_of_inner {next : IndexWord} {more : List IndexWord}
    (same : ∀ other ∈ word :: rest, other.pos = next.pos)
    (apart : ((word :: rest ++ next :: more).map origin).Nodup)
    (isMark : mark ∈ wantedAt before (word :: rest ++ next :: more))
    (isNext : origin mark = origin next) : mark = endMark next := by
  induction rest generalizing before word with
  | nil =>
    obtain ⟨notWord, others⟩ := List.nodup_cons.mp apart
    obtain ⟨notNext, _⟩ := List.nodup_cons.mp others
    rcases mem_wantedAt_cons.mp isMark with ⟨rfl, _⟩ | ⟨rfl, _⟩ | isMark
    · exact absurd (List.mem_cons.mpr (.inl isNext)) notWord
    · exact absurd (List.mem_cons.mpr (.inl isNext)) notWord
    · rcases mem_wantedAt_cons.mp isMark with ⟨_, isBegin⟩ | ⟨isEnd, _⟩ | isMark
      · exact absurd (same word List.mem_cons_self) (isBegin word rfl)
      · exact isEnd
      · exact absurd (isNext ▸ origin_of_wantedAt isMark) notNext
  | cons second rest ih =>
    obtain ⟨notWord, others⟩ := List.nodup_cons.mp apart
    have isInside : origin next ∈ (second :: rest ++ next :: more).map origin :=
      List.mem_map_of_mem (List.mem_append_right _ List.mem_cons_self)
    rcases mem_wantedAt_cons.mp isMark with ⟨rfl, _⟩ | ⟨rfl, _⟩ | isMark
    · exact absurd (isNext ▸ isInside) notWord
    · exact absurd (isNext ▸ isInside) notWord
    · exact ih (fun other within => same other (List.mem_cons_of_mem _ within)) others isMark

/-- Words that are left behind a word, and that are told apart by what marks keep of them. -/
structure Told (before : Option IndexWord) (words : List IndexWord) : Prop where
  apart : ((before.toList ++ words).map origin).Nodup
  ordered : words.Pairwise fun first second => first.pos ≤ second.pos
  sounds : ∀ word ∈ words, Sound word

theorem Told.nodup (told : Told before words) : (words.map origin).Nodup := by
  have apart := told.apart
  rw [List.map_append] at apart
  exact apart.of_append_right

theorem Told.tail (told : Told before (word :: rest)) : Told (some word) rest where
  apart := told.nodup
  ordered := (List.pairwise_cons.mp told.ordered).2
  sounds := fun other within => told.sounds other (List.mem_cons_of_mem _ within)

theorem Told.origin_ne (told : Told before (word :: rest)) {other : IndexWord}
    (within : other ∈ rest) : origin other ≠ origin word := fun same =>
  (List.nodup_cons.mp told.nodup).1 (same ▸ List.mem_map_of_mem within)

theorem Told.not_marked (told : Told before (words ++ batches.flatten))
    (within : word ∈ words) (isMark : mark ∈ marked max (before.getD noWord) batches) :
    origin mark ≠ origin word := by
  intro same
  have apart := told.nodup
  rw [List.map_append] at apart
  rcases origin_of_marked isMark with inBatches | ⟨isLast, notEmpty⟩
  · exact List.disjoint_of_nodup_append apart (List.mem_map_of_mem within) (same ▸ inBatches)
  · cases before with
    | none => exact notEmpty rfl
    | some last =>
      refine (List.nodup_cons.mp told.apart).1 ?_
      have isWord : origin last = origin word := isLast.symm.trans same
      rw [isWord]
      show origin word ∈ (words ++ batches.flatten).map origin
      exact List.mem_map_of_mem (List.mem_append_left _ within)

def Agree (before : Option IndexWord) (words made : List IndexWord) : Prop :=
  ∀ mark, origin mark ∈ words.map origin → (mark ∈ made ↔ mark ∈ wantedAt before words)

theorem Agree.roomForBegin
    (told : Told before (word :: rest ++ batches.flatten))
    (agree : Agree before (word :: rest ++ batches.flatten)
      (begins (before.getD noWord) word ++ marked max (before.getD noWord) batches))
    (notEmpty : ∀ batch ∈ batches, batch ≠ []) :
    begins (before.getD noWord) word = [] := by
  refine List.eq_nil_iff_forall_not_mem.mpr fun start isStart => ?_
  have isChange : (before.getD noWord).pos ≠ word.pos := (mem_begins.mp isStart).2
  have sound := told.sounds word List.mem_cons_self
  by_cases goesOn : ∀ other ∈ batches.flatten.head?, other.pos ≠ word.pos
  · obtain ⟨closed, within, isWanted⟩ := @exists_closing before word rest _ goesOn
    have isOrigin : origin closed ∈ (word :: rest ++ batches.flatten).map origin :=
      List.mem_map_of_mem (List.mem_append_left _ within)
    rcases List.mem_append.mp ((agree (endMark closed) isOrigin).mpr isWanted) with isBegin | isMark
    · have same := origin_of_begins isBegin
      rcases List.mem_cons.mp within with rfl | inRest
      · exact beginOf_ne_endMark sound (mem_begins.mp isBegin).1.symm
      · exact told.origin_ne (List.mem_append_left _ inRest) same
    · exact told.not_marked within isMark rfl
  · have hasNext : ∃ next, batches.flatten.head? = some next ∧ next.pos = word.pos := by
      by_contra none
      refine goesOn fun other isOther same => none ⟨other, isOther, same⟩
    obtain ⟨next, isNext, same⟩ := hasNext
    cases batches with
    | nil => cases isNext
    | cons batch batches =>
      obtain ⟨first, others, rfl⟩ :=
        List.exists_cons_of_ne_nil (notEmpty batch List.mem_cons_self)
      obtain rfl : first = next := Option.some.inj isNext
      have isBegin : beginOf first ∈ begins (before.getD noWord) first := by
        refine mem_begins.mpr ⟨rfl, ?_⟩
        rw [same]
        exact isChange
      have isMade : beginOf first ∈ begins (before.getD noWord) word ++
          marked max (before.getD noWord) ((first :: others) :: batches) :=
        List.mem_append_right _ (List.mem_append_left _ (mem_scanned_of_begins isBegin))
      have inWords : first ∈ word :: rest ++ ((first :: others) :: batches).flatten :=
        List.mem_append_right _ List.mem_cons_self
      have isOrigin : origin first ∈
          (word :: rest ++ ((first :: others) :: batches).flatten).map origin :=
        List.mem_map_of_mem inWords
      have isWanted := (agree (beginOf first) isOrigin).mp isMade
      have samePos : ∀ other ∈ word :: rest, other.pos = first.pos := by
        intro other within
        have atMost := (List.pairwise_append.mp told.ordered).2.2 other within first
          List.mem_cons_self
        have atLeast : word.pos ≤ other.pos := by
          rcases List.mem_cons.mp within with rfl | inRest
          · exact le_refl _
          · exact (List.pairwise_cons.mp told.ordered).1 other (List.mem_append_left _ inRest)
        omega
      exact beginOf_ne_endMark (told.sounds first inWords)
        (eq_endMark_of_inner samePos told.nodup isWanted rfl)

theorem Agree.roomForEnd (told : Told before (word :: rest ++ batches.flatten))
    (agree : Agree before (word :: rest ++ batches.flatten)
      ((begins (before.getD noWord) word ++ ends word rest) ++
        marked max (before.getD noWord) batches)) :
    ends word rest = [] := by
  refine List.eq_nil_iff_forall_not_mem.mpr fun stop isStop => ?_
  have isChange := (mem_ends.mp isStop).2
  cases rest with
  | nil => cases isChange
  | cons next rest =>
    have isNext : ∀ other ∈ some word, other.pos ≠ next.pos := by
      rintro other isOther
      cases isOther
      exact Ne.symm (isEnd_cons_iff.mp isChange)
    have isWanted : beginMark next ∈ wantedAt before (word :: next :: rest ++ batches.flatten) :=
      mem_wantedAt_cons.mpr (.inr (.inr (mem_wantedAt_cons.mpr (.inl ⟨rfl, isNext⟩))))
    have within : next ∈ word :: next :: rest := List.mem_cons_of_mem _ List.mem_cons_self
    have notWord : origin next ≠ origin word :=
      told.origin_ne (List.mem_append_left _ List.mem_cons_self)
    have isOrigin : origin next ∈ (word :: next :: rest ++ batches.flatten).map origin :=
      List.mem_map_of_mem (List.mem_append_left _ within)
    rcases List.mem_append.mp ((agree (beginMark next) isOrigin).mpr isWanted) with
      isMark | isMark
    · rcases List.mem_append.mp isMark with isBegin | isEnd
      · exact notWord (origin_of_begins isBegin : origin (beginMark next) = origin word)
      · exact notWord (origin_of_ends isEnd : origin (beginMark next) = origin word)
    · exact told.not_marked within isMark rfl

theorem Agree.tail {others behind : List IndexWord} (told : Told before (word :: behind))
    (agree : Agree before (word :: behind) (begins last word ++ (ends word rest ++ others))) :
    Agree (some word) behind others := by
  intro mark isOrigin
  have notWord : origin mark ≠ origin word :=
    fun same => (List.nodup_cons.mp told.nodup).1 (same ▸ isOrigin)
  have both := agree mark (List.mem_cons_of_mem _ isOrigin)
  rw [mem_wantedAt_cons, List.mem_append, List.mem_append] at both
  constructor
  · intro isMark
    rcases both.mp (.inr (.inr isMark)) with ⟨rfl, _⟩ | ⟨rfl, _⟩ | isWanted
    · exact absurd rfl notWord
    · exact absurd rfl notWord
    · exact isWanted
  · intro isWanted
    rcases both.mpr (.inr (.inr isWanted)) with isBegin | isEnd | isMark
    · exact absurd (origin_of_begins isBegin) notWord
    · exact absurd (origin_of_ends isEnd) notWord
    · exact isMark

theorem Agree.own {others behind : List IndexWord} (told : Told before (word :: behind))
    (agree : Agree before (word :: behind) (begins last word ++ (ends word rest ++ others)))
    (isPart : rest <+: behind)
    (isOwn : ∀ mark ∈ others, origin mark = origin word →
      behind = [] ∧ word.len ≠ 0 ∧ mark = lastOf (endCopy word) word) :
    ((∀ other ∈ before, other.pos ≠ word.pos) →
      last.pos ≠ word.pos ∧ beginOf word = beginMark word) ∧
    ((∀ other ∈ behind.head?, other.pos ≠ word.pos) →
      isEnd word rest = true ∧ endOf word = endMark word ∨
        behind = [] ∧ word.len ≠ 0 ∧ lastOf (endCopy word) word = endMark word) := by
  have sound := told.sounds word List.mem_cons_self
  have isClosed : (∀ other ∈ behind.head?, other.pos ≠ word.pos) →
      isEnd word rest = true ∧ endOf word = endMark word ∨
        behind = [] ∧ word.len ≠ 0 ∧ lastOf (endCopy word) word = endMark word := by
    intro closes
    have isMade := (agree (endMark word) List.mem_cons_self).mpr
      (mem_wantedAt_cons.mpr (.inr (.inl ⟨rfl, closes⟩)))
    rcases List.mem_append.mp isMade with isBegin | isMade
    · exact absurd (mem_begins.mp isBegin).1.symm (beginOf_ne_endMark sound)
    · rcases List.mem_append.mp isMade with isEnd | isMade
      · exact .inl ⟨(mem_ends.mp isEnd).2, (mem_ends.mp isEnd).1.symm⟩
      · obtain ⟨isEmpty, notEmpty, isLast⟩ := isOwn _ isMade rfl
        exact .inr ⟨isEmpty, notEmpty, isLast.symm⟩
  refine ⟨fun starts => ?_, isClosed⟩
  have isMade := (agree (beginMark word) List.mem_cons_self).mpr
    (mem_wantedAt_cons.mpr (.inl ⟨rfl, starts⟩))
  have notEnd := beginMark_ne_endMark sound
  rcases List.mem_append.mp isMade with isBegin | isMade
  · exact ⟨(mem_begins.mp isBegin).2, (mem_begins.mp isBegin).1.symm⟩
  · rcases List.mem_append.mp isMade with isEnd | isMade
    · obtain ⟨isSame, isChange⟩ := mem_ends.mp isEnd
      obtain ⟨more, rfl⟩ := isPart
      cases rest with
      | nil => cases isChange
      | cons next rest =>
        have closes : ∀ other ∈ (next :: rest ++ more).head?, other.pos ≠ word.pos := by
          intro other isOther
          cases isOther
          exact isEnd_cons_iff.mp isChange
        rcases isClosed closes with ⟨_, isMark⟩ | ⟨never, _⟩
        · exact absurd (isSame.trans isMark) notEnd
        · cases never
    · obtain ⟨rfl, _, isLast⟩ := isOwn _ isMade rfl
      rcases isClosed (fun other never => by cases never) with ⟨isChange, _⟩ | ⟨_, _, isMark⟩
      · rw [List.prefix_nil.mp isPart] at isChange
        cases isChange
      · exact absurd (isLast.trans isMark) notEnd

theorem origin_of_rest {next : IndexWord} (hasRoom : 0 < room)
    (fits : Fits room last (next :: rest))
    (isMark : mark ∈ (scanned room last (next :: rest)).1 ++
      marked max (scanned room last (next :: rest)).2 batches) :
    origin mark ∈ (next :: rest ++ batches.flatten).map origin := by
  rw [List.map_append, List.mem_append]
  rcases List.mem_append.mp isMark with isScanned | isMark
  · exact .inl (origin_of_scanned isScanned)
  · rw [scanned_fits hasRoom fits, List.getLastD_cons] at isMark
    rcases origin_of_marked isMark with within | ⟨isLast, _⟩
    · exact .inr within
    · exact .inl (isLast ▸ List.mem_map_of_mem List.getLastD_mem_cons)

theorem Fits.cons (forBegin : ¬ (begins last word ≠ [] ∧ room ≤ 1))
    (forEnd : ¬ (ends word rest ≠ [] ∧ room - (begins last word).length ≤ 1))
    (fits : Fits (room - (begins last word).length - (ends word rest).length) word rest) :
    Fits room last (word :: rest) := by
  have oneBegin := length_begins_le last word
  have oneEnd := length_ends_le word rest
  rw [ne_eq, ← List.length_eq_zero_iff] at forBegin forEnd
  rw [Fits, ← List.length_eq_zero_iff] at fits ⊢
  rw [marksOf, List.length_append, List.length_append]
  omega

theorem left_pos (hasRoom : 0 < room) (forBegin : ¬ (begins last word ≠ [] ∧ room ≤ 1))
    (forEnd : ¬ (ends word rest ≠ [] ∧ room - (begins last word).length ≤ 1)) :
    0 < room - (begins last word).length - (ends word rest).length := by
  have oneBegin := length_begins_le last word
  have oneEnd := length_ends_le word rest
  rw [ne_eq, ← List.length_eq_zero_iff] at forBegin forEnd
  omega

/-- What holds of the batch with a word and of the batches behind it. -/
structure Right (max room : Nat) (before : Option IndexWord) (word : IndexWord)
    (rest : List IndexWord) (batches : List (List IndexWord)) : Prop where
  fits : Fits room (before.getD noWord) (word :: rest)
  opens : (∀ other ∈ before, other.pos ≠ word.pos) →
    (before.getD noWord).pos ≠ word.pos ∧ (beginMark word).len = word.len
  measured : Measured (word :: rest)
  follows : Follows max (rest.getLastD word) batches

theorem Agree.step {others : List IndexWord}
    (told : Told before (word :: (rest ++ batches.flatten)))
    (agree : Agree before (word :: (rest ++ batches.flatten))
      (begins (before.getD noWord) word ++ (ends word rest ++ others)))
    (isOwn : ∀ mark ∈ others, origin mark = origin word →
      rest ++ batches.flatten = [] ∧ word.len ≠ 0 ∧ mark = lastOf (endCopy word) word)
    (fits : Fits room (before.getD noWord) (word :: rest))
    (behind : ∀ next more, rest = next :: more →
      (word.pos ≠ next.pos → (beginMark next).len = next.len) ∧ Measured (next :: more))
    (follows : (∀ other ∈ (rest ++ batches.flatten).head?,
        isEnd word rest = true ∨ other.pos = word.pos) →
      (rest ++ batches.flatten = [] → word.word ≠ [] ∧ (endMark word).len < maxWordLen) →
      Follows max (rest.getLastD word) batches) :
    Right max room before word rest batches := by
  have sound := told.sounds word List.mem_cons_self
  obtain ⟨starts, closes⟩ := Agree.own told agree (List.prefix_append _ _) isOwn
  refine ⟨fits, fun isFirst => ?_, ?_, follows ?_ ?_⟩
  · obtain ⟨isChange, isMark⟩ := starts isFirst
    exact ⟨isChange, (beginOf_eq_iff sound).mp isMark⟩
  · cases rest with
    | nil =>
      intro pair never
      cases never
    | cons next more =>
      obtain ⟨begin, measured⟩ := behind next more rfl
      intro pair within
      rcases List.mem_append.mp within with isFirst | isLater
      · split at isFirst
        case isTrue isChange =>
          rw [List.mem_singleton.mp isFirst]
          have isClosed : ∀ other ∈ (next :: more ++ batches.flatten).head?,
              other.pos ≠ word.pos := by
            intro other isOther
            cases isOther
            exact isChange
          rcases closes isClosed with ⟨_, isMark⟩ | ⟨never, _⟩
          · exact ⟨(endOf_eq_iff sound).mp isMark, begin (Ne.symm isChange)⟩
          · cases never
        case isFalse => cases isFirst
      · exact measured pair isLater
  · intro other isOther
    by_cases isChange : other.pos ≠ word.pos
    · refine .inl ?_
      have isClosed : ∀ another ∈ (rest ++ batches.flatten).head?, another.pos ≠ word.pos := by
        intro another isAnother
        rw [Option.mem_def.mp isOther] at isAnother
        cases isAnother
        exact isChange
      rcases closes isClosed with ⟨isEnd, _⟩ | ⟨isEmpty, _⟩
      · exact isEnd
      · rw [isEmpty] at isOther
        cases isOther
    · exact .inr (not_not.mp isChange)
  · intro isEmpty
    rw [isEmpty] at closes
    rcases closes (fun other never => by cases never) with ⟨isChange, _⟩ | ⟨_, notEmpty, isMark⟩
    · rw [(List.append_eq_nil_iff.mp isEmpty).1] at isChange
      cases isChange
    · refine ⟨fun none => notEmpty ?_, lastOf_eq_iff.mp isMark⟩
      rw [sound.isLen, none]
      rfl

theorem Agree.goesOn (delivered : Delivered max batches)
    (told : Told before (word :: (rest ++ batches.flatten)))
    (agree : Agree before (word :: (rest ++ batches.flatten))
      ((scanned room (before.getD noWord) (word :: rest)).1 ++
        marked max (scanned room (before.getD noWord) (word :: rest)).2 batches)) :
    ¬ (begins (before.getD noWord) word ≠ [] ∧ room ≤ 1) ∧
    ¬ (ends word rest ≠ [] ∧ room - (begins (before.getD noWord) word).length ≤ 1) ∧
    ∃ left, left = room - (begins (before.getD noWord) word).length - (ends word rest).length ∧
      Agree before (word :: (rest ++ batches.flatten))
        (begins (before.getD noWord) word ++ (ends word rest ++
          ((scanned left word rest).1 ++ marked max (scanned left word rest).2 batches))) := by
  rw [scanned] at agree
  by_cases isFull : begins (before.getD noWord) word ≠ [] ∧ room ≤ 1
  · rw [if_pos isFull] at agree
    exact absurd (Agree.roomForBegin told agree fun batch within => (delivered batch within).1)
      isFull.1
  · rw [if_neg isFull] at agree
    by_cases isOver : ends word rest ≠ [] ∧ room - (begins (before.getD noWord) word).length ≤ 1
    · rw [if_pos isOver] at agree
      exact absurd (Agree.roomForEnd told agree) isOver.1
    · rw [if_neg isOver] at agree
      refine ⟨isFull, isOver, _, rfl, ?_⟩
      simpa only [List.append_assoc] using agree

theorem follows_of_right {first : IndexWord} (same : first.pos = word.pos)
    (right : Right max (max - (first :: rest).length) (some word) first rest batches) :
    Follows max word ((first :: rest) :: batches) := by
  refine ⟨?_, ?_, right.measured, ?_⟩
  · intro other isOther
    cases isOther
    exact same
  · have fits := right.fits
    have isWord : (some word).getD noWord = word := rfl
    have noBegin : ¬ word.pos ≠ first.pos := fun never => never same.symm
    rw [isWord, Fits, ← List.length_eq_zero_iff, length_marksOf, if_neg noBegin] at fits
    rw [← List.length_eq_zero_iff]
    omega
  · rw [List.getLastD_cons]
    exact right.follows

theorem Agree.stepRest {next : IndexWord} (delivered : Delivered max batches)
    (hasRoom : 0 < room) (told : Told before (word :: (next :: rest ++ batches.flatten)))
    (agree : Agree before (word :: (next :: rest ++ batches.flatten))
      ((scanned room (before.getD noWord) (word :: next :: rest)).1 ++
        marked max (scanned room (before.getD noWord) (word :: next :: rest)).2 batches))
    (ih : ∀ {left : Nat}, 0 < left → Told (some word) (next :: (rest ++ batches.flatten)) →
      Agree (some word) (next :: (rest ++ batches.flatten))
        ((scanned left word (next :: rest)).1 ++
          marked max (scanned left word (next :: rest)).2 batches) →
      Right max left (some word) next rest batches) :
    Right max room before word (next :: rest) batches := by
  obtain ⟨forBegin, forEnd, left, isLeft, agree⟩ := Agree.goesOn delivered told agree
  have hasLeft : 0 < left := by
    rw [isLeft]
    exact left_pos hasRoom forBegin forEnd
  have right := ih hasLeft told.tail (Agree.tail told agree)
  have fits := right.fits
  refine Agree.step told agree ?_ (Fits.cons forBegin forEnd (isLeft ▸ fits)) ?_ ?_
  · intro mark isMark same
    have within := origin_of_rest hasLeft fits isMark
    exact absurd (same ▸ within) (List.nodup_cons.mp told.nodup).1
  · intro other more isRest
    cases isRest
    refine ⟨fun isChange => (right.opens ?_).2, right.measured⟩
    rintro other isOther
    cases isOther
    exact isChange
  · intro _ _
    rw [List.getLastD_cons]
    exact right.follows

theorem Agree.right (enough : 1 < max) (delivered : Delivered max batches) (hasRoom : 0 < room)
    (told : Told before (word :: (rest ++ batches.flatten)))
    (agree : Agree before (word :: (rest ++ batches.flatten))
      ((scanned room (before.getD noWord) (word :: rest)).1 ++
        marked max (scanned room (before.getD noWord) (word :: rest)).2 batches)) :
    Right max room before word rest batches := by
  induction batches generalizing room before word rest with
  | nil =>
    induction rest generalizing room before word with
    | nil =>
      obtain ⟨forBegin, forEnd, left, isLeft, agree⟩ := Agree.goesOn delivered told agree
      refine Agree.step told agree ?_ (Fits.cons forBegin forEnd (.inl rfl)) ?_ ?_
      · intro mark isMark _
        rw [scanned, List.nil_append, marked] at isMark
        split at isMark
        · cases isMark
        case isFalse notEmpty => exact ⟨rfl, notEmpty, List.mem_singleton.mp isMark⟩
      · intro next more never
        cases never
      · exact fun _ isRight => isRight rfl
    | cons next rest ih => exact Agree.stepRest delivered hasRoom told agree ih
  | cons batch batches ihBatches =>
    induction rest generalizing room before word with
    | nil =>
      obtain ⟨first, others, rfl⟩ :=
        List.exists_cons_of_ne_nil (delivered batch List.mem_cons_self).1
      have half := (delivered _ List.mem_cons_self).2
      obtain ⟨forBegin, forEnd, left, isLeft, agree⟩ := Agree.goesOn delivered told agree
      have isRest := Agree.tail told agree
      have isRoom : 0 < max - (first :: others).length := by omega
      have right := ihBatches
        (fun other within => delivered other (List.mem_cons_of_mem _ within)) isRoom told.tail isRest
      refine Agree.step told agree ?_ (Fits.cons forBegin forEnd (.inl rfl)) ?_ ?_
      · intro mark isMark same
        have within := origin_of_rest isRoom right.fits isMark
        exact absurd (same ▸ within) (List.nodup_cons.mp told.nodup).1
      · intro next more never
        cases never
      · intro joined _
        refine follows_of_right ?_ right
        rcases joined first rfl with never | same
        · cases never
        · exact same
    | cons next rest ih => exact Agree.stepRest delivered hasRoom told agree ih

theorem Right.clear {first : IndexWord}
    (right : Right max (max - (first :: rest).length) none first rest batches) :
    Clear max ((first :: rest) :: batches) := by
  obtain ⟨isChange, isLen⟩ := right.opens fun other never => by cases never
  have isOther : noWord.pos ≠ first.pos := isChange
  refine ⟨?_, ?_, right.measured, ?_⟩
  · intro other isFirst
    cases isFirst
    exact ⟨Ne.symm isOther, isLen⟩
  · have fits := right.fits
    have isWord : (none : Option IndexWord).getD noWord = noWord := rfl
    rw [isWord, Fits, ← List.length_eq_zero_iff, length_marksOf, if_pos isOther] at fits
    omega
  · rw [List.getLastD_cons]
    exact right.follows

end Apart

/-- The marks are complete where no position ends with a batch or is 0, there is room and
the marks are as long as their words; and where the words of a position are told apart by
their fields and attributes they are complete only there. -/
theorem bigramGenerator2_complete_iff {max : Nat} {batches : List (List IndexWord)}
    (delivered : Delivered max batches)
    (ordered : batches.flatten.Pairwise fun first second => first.pos ≤ second.pos)
    (sounds : ∀ word ∈ batches.flatten, Sound word) :
    (1 < max ∧ Clear max batches → Complete max batches) ∧
      ((batches.flatten.map origin).Nodup →
        (Complete max batches ↔ 1 < max ∧ Clear max batches)) := by
  have isWanted : wanted [] batches.flatten = wantedAt none batches.flatten :=
    wanted_eq_wantedAt ordered List.Pairwise.nil fun other never => by cases never
  have enough : 1 < max ∧ Clear max batches → Complete max batches := by
    rintro ⟨isMore, clear⟩
    rw [complete_iff delivered, isWanted, marked_clear delivered isMore sounds clear]
    exact ⟨isMore, List.Perm.refl _⟩
  refine ⟨enough, fun apart => ⟨fun complete => ?_, enough⟩⟩
  rw [complete_iff delivered, isWanted] at complete
  obtain ⟨isMore, isPerm⟩ := complete
  refine ⟨isMore, ?_⟩
  cases batches with
  | nil => trivial
  | cons batch batches =>
    obtain ⟨first, rest, rfl⟩ :=
      List.exists_cons_of_ne_nil (delivered batch List.mem_cons_self).1
    have half := (delivered _ List.mem_cons_self).2
    have told : Told none (first :: (rest ++ batches.flatten)) := ⟨apart, ordered, sounds⟩
    have right := @Agree.right _ _ none _ _ _ isMore
      (fun other within => delivered other (List.mem_cons_of_mem _ within))
      (by omega : 0 < max - (first :: rest).length) told fun mark _ => isPerm.mem_iff
    exact right.clear

def sampleWord (pos : Nat) (second : UInt8) : IndexWord :=
  { word := [0xb0, 0xa1, 0xb0, second], pos, field := 0, len := 4, attr := 0 }

/-- Two positions in two batches. -/
theorem bigramGenerator2_complete_two :
    Complete 8 [[sampleWord 1 0xa1, sampleWord 2 0xa2], [sampleWord 2 0xa3]] := by
  refine (bigramGenerator2_complete_iff ?_ (by decide) ?_).1 ⟨by decide, ?_⟩
  · exact (by decide : ∀ batch ∈ [[sampleWord 1 0xa1, sampleWord 2 0xa2], [sampleWord 2 0xa3]],
      batch ≠ [] ∧ batch.length ≤ 8 / 2)
  · intro word within
    have parts : word.len = word.word.length ∧ word.word.length < maxWordLen :=
      (by decide : ∀ word ∈ [sampleWord 1 0xa1, sampleWord 2 0xa2, sampleWord 2 0xa3],
        word.len = word.word.length ∧ word.word.length < maxWordLen) word within
    exact ⟨parts.1, parts.2⟩
  · refine ⟨by decide, by decide, ?_, by decide, .inl rfl, ?_, by decide, by decide⟩
    · exact (by decide : ∀ pair ∈ changes [sampleWord 1 0xa1, sampleWord 2 0xa2],
        (endMark pair.1).len = pair.1.len ∧ (beginMark pair.2).len = pair.2.len)
    · exact (by decide : ∀ pair ∈ changes [sampleWord 2 0xa3],
        (endMark pair.1).len = pair.1.len ∧ (beginMark pair.2).len = pair.2.len)

/-- A position that ends with its batch has no end mark. -/
theorem bigramGenerator2_incomplete :
    ¬ Complete 8 [[sampleWord 1 0xa1], [sampleWord 2 0xa2]] := by
  have delivered : Delivered 8 [[sampleWord 1 0xa1], [sampleWord 2 0xa2]] :=
    (by decide : ∀ batch ∈ [[sampleWord 1 0xa1], [sampleWord 2 0xa2]],
      batch ≠ [] ∧ batch.length ≤ 8 / 2)
  rw [complete_iff delivered]
  rintro ⟨_, isPerm⟩
  have lengths := isPerm.length_eq
  revert lengths
  decide

end Wisebot.Extractor.Truncation
