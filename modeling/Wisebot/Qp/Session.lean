import Wisebot.Lexicon.Bijection
import Wisebot.Qp.Retrieval

namespace Wisebot.Qp

open Wisebot.Lib (runSchedule)

open Wisebot.Indexer (Build Document IndexdbAppend Saved Inverts FieldsFit saveRuns maxDochits)

open Wisebot.Lexicon (WordResult cutWord Registered)

/-! Sessions of indexing and searching over one lexicon, where a word has no id before a
document with it comes. -/

/-- The lexicon and how often it has been called. -/
structure Words where
  wordDb : Lexicon.WordDb
  calls : Nat

def answeredId : WordResult → Option Nat
  | .oldRegistered wordid | .newRegistered wordid => some wordid
  | .notRegistered | .fail => none

section Steps

variable (md5 : List UInt8 → Hash.HashKey) (mmap : Nat → Lexicon.Env)

def Words.call (words : Words) (call : Lexicon.Call) : Option (Words × WordResult) :=
  (call.run md5 (mmap words.calls) words.wordDb).map fun answer =>
    (⟨answer.1, words.calls + 1⟩, answer.2)

/-- Whether the lexicon answers the calls one after another, and none with `FAIL`. -/
def Words.serves : List Lexicon.Call → Words → Bool
  | [], _ => true
  | call :: rest, words =>
    match words.call md5 mmap call with
    | none => false
    | some (after, result) => decide (result ≠ .fail) && Words.serves rest after

/-- `index_each_doc` from place `idx` on. -/
def Words.indexEachDoc (wordhitSize : Nat) :
    List Indexer.IndexWord → (idx : Nat) → Words → Option (Words × List Indexer.WordHit)
  | [], _, words => some (words, [])
  | indexWord :: rest, idx, words =>
    if wordhitSize ≤ idx then some (words, [])
    else if indexWord.isNull then Words.indexEachDoc wordhitSize rest idx words
    else do
      let (words, result) ← words.call md5 mmap (.getNewWordid indexWord.string)
      match answeredId result with
      | none => Words.indexEachDoc wordhitSize rest idx words
      | some wordid => do
        let (words, wordhits) ← Words.indexEachDoc wordhitSize rest (idx + 1) words
        some (words, ⟨wordid, Indexer.stdHit indexWord⟩ :: wordhits)

/-- The nodes of a query, each word of which is looked up as it is pushed. -/
def Query.push : Query → Words → Option (Words × List QueryNode)
  | .word string field, words => do
    let (words, result) ← words.call md5 mmap (.getWordid string)
    some (words, [.operand ((answeredId result).getD unknownWord) field false])
  | .and left right, words => do
    let (words, first) ← Query.push left words
    let (words, second) ← Query.push right words
    some (words, first ++ second ++ [.operator .and 2])
  | .or left right, words => do
    let (words, first) ← Query.push left words
    let (words, second) ← Query.push right words
    some (words, first ++ second ++ [.operator .or 2])

inductive Event where
  | index (document : Document)
  | search (query : Query)

structure Engine where
  words : Words
  dochits : List Indexer.DocHit
  appends : List IndexdbAppend
  pool : List Hits

variable (build : Build) (overshift : UInt8 → BitVec 32)
  (indexdbAppend : IndexdbAppend → Bool) (maxDocHitsSize : Nat)

/-- A step of the engine, which is none where something goes wrong other than by an error. -/
def Engine.step (engine : Engine) : Event → Option Engine
  | .index document => do
    let (words, wordhits) ←
      engine.words.indexEachDoc md5 mmap document.wordhitLen document.indexWords 0
    let saved ← (saveRuns build overshift indexdbAppend document.docid wordhits.length
      (Lib.Runs.sortByKey Indexer.WordHit.wordid wordhits) engine.dochits).toOption
    some { engine with
      words := words
      dochits := saved.dochits
      appends := engine.appends ++ saved.appends }
  | .search query => do
    let (words, nodes) ← query.push md5 mmap engine.words
    let outcome ← doSearchOperation (indexEnv maxDocHitsSize engine.appends) nodes engine.pool
    some { engine with words := words, pool := outcome.pool }

end Steps

def Event.calls : Event → List Lexicon.Call
  | .index document => document.hitWords.map fun indexWord => .getNewWordid indexWord.string
  | .search query => query.strings.map .getWordid

def Event.document? : Event → Option Document
  | .index document => some document
  | .search _ => none

def documentsOf (events : List Event) : List Document := events.filterMap Event.document?

/-- The query with its words cut as the lexicon cuts them. -/
def Query.cut : Query → Query
  | .word string field => .word (cutWord string) field
  | .and left right => .and left.cut right.cut
  | .or left right => .or left.cut right.cut

def position (listed : List (List UInt8)) (string : List UInt8) : Nat :=
  listed.idxOf string + 1

def lookup (listed : List (List UInt8)) (string : List UInt8) : Nat :=
  if string ≠ [] ∧ string ∈ listed then position listed string else unknownWord

section Listed

variable {listed later : List (List UInt8)} {string : List UInt8}

theorem position_grown (grown : listed <+: later) (isListed : string ∈ listed) :
    position later string = position listed string := by
  obtain ⟨more, rfl⟩ := grown
  rw [position, List.idxOf_append_of_mem isListed]
  rfl

theorem position_of_idxOf? {index : Nat} (isIndex : listed.idxOf? string = some index) :
    string ∈ listed ∧ position listed string = index + 1 := by
  refine ⟨List.mem_of_getElem? (Lexicon.getElem?_of_idxOf? isIndex), ?_⟩
  rw [position, List.idxOf_eq_getD_idxOf?, isIndex]
  rfl

theorem position_concat (isNew : string ∉ listed) :
    position (listed ++ [string]) string = listed.length + 1 := by
  rw [position, List.idxOf_append_of_notMem isNew, List.idxOf_cons_self, Nat.add_zero]

theorem string_ne_nil {indexWord : Indexer.IndexWord} (notNull : indexWord.isNull = false) :
    indexWord.string ≠ [] := by
  rw [Indexer.IndexWord.isNull] at notNull
  rw [Indexer.IndexWord.string]
  cases isWord : indexWord.word with
  | nil => simp [isWord] at notNull
  | cons byte rest =>
    rw [isWord] at notNull
    have isByte : byte ≠ 0 := by simpa using notNull
    simp [isByte, Indexer.maxWordLen]

theorem ne_nil_of_mem_strings {document : Document} (isString : string ∈ document.strings) :
    string ≠ [] := by
  obtain ⟨indexWord, isHit, rfl⟩ := isString
  have notNull := (List.mem_filter.mp (List.mem_of_mem_take isHit)).2
  exact string_ne_nil (by simpa using notNull)

theorem cutWord_string (indexWord : Indexer.IndexWord) :
    cutWord indexWord.string = indexWord.string := by
  have noZero : ∀ byte ∈ indexWord.string, decide (byte ≠ 0) = true := fun byte member =>
    List.all_eq_true.mp (List.all_takeWhile) byte (List.mem_of_mem_take member)
  have short : indexWord.string.length ≤ Indexer.maxWordLen - 1 := List.length_take_le _ _
  rw [cutWord, List.takeWhile_eq_self_iff.mpr noZero]
  exact if_neg (by rw [Lexicon.maxWordLen]; exact Nat.not_le.mpr (Nat.lt_succ_of_le short))

end Listed

section Calls

variable {md5 : List UInt8 → Hash.HashKey} {mmap : Nat → Lexicon.Env} {words after : Words}
  {listed : List (List UInt8)} {result : WordResult} {rest : List Lexicon.Call}

theorem Words.serves_cons {call : Lexicon.Call}
    (serves : Words.serves md5 mmap (call :: rest) words = true) :
    ∃ after result, words.call md5 mmap call = some (after, result) ∧ result ≠ .fail ∧
      Words.serves md5 mmap rest after = true := by
  rw [Words.serves] at serves
  split at serves
  · cases serves
  next after result isCalled =>
    obtain ⟨succeeded, later⟩ := Bool.and_eq_true_iff.mp serves
    exact ⟨after, result, isCalled, of_decide_eq_true succeeded, later⟩

theorem Words.call_registered {call : Lexicon.Call}
    (registered : Registered md5 words.wordDb listed)
    (isCalled : words.call md5 mmap call = some (after, result)) (succeeded : result ≠ .fail) :
    result = (call.answer Lexicon.nonempty listed).2 ∧
      Registered md5 after.wordDb (call.answer Lexicon.nonempty listed).1 := by
  obtain ⟨⟨wordDb, answer⟩, ran, same⟩ := Option.map_eq_some_iff.mp isCalled
  cases same
  exact registered.call ran succeeded

theorem Words.call_getNewWordid {string : List UInt8} (isCut : cutWord string = string)
    (notEmpty : string ≠ []) (registered : Registered md5 words.wordDb listed)
    (isCalled : words.call md5 mmap (.getNewWordid string) = some (after, result))
    (succeeded : result ≠ .fail) :
    ∃ later, listed <+: later ∧ string ∈ later ∧ Registered md5 after.wordDb later ∧
      answeredId result = some (position later string) := by
  obtain ⟨rfl, afterwards⟩ := Words.call_registered registered isCalled succeeded
  have isNonempty : Lexicon.nonempty string = true := by
    simpa [Lexicon.nonempty] using notEmpty
  simp only [Lexicon.Call.answer, isCut, isNonempty, if_true] at afterwards ⊢
  cases isIndex : listed.idxOf? string with
  | some index =>
    rw [isIndex] at afterwards
    obtain ⟨isListed, isPosition⟩ := position_of_idxOf? isIndex
    exact ⟨listed, List.prefix_refl _, isListed, afterwards, congrArg some isPosition.symm⟩
  | none =>
    rw [isIndex] at afterwards
    have isNew := position_concat (List.idxOf?_eq_none_iff.mp isIndex)
    exact ⟨listed ++ [string], List.prefix_append _ _, List.mem_append_right _ List.mem_cons_self,
      afterwards, congrArg some isNew.symm⟩

theorem Words.call_getWordid {string : List UInt8}
    (registered : Registered md5 words.wordDb listed)
    (isCalled : words.call md5 mmap (.getWordid string) = some (after, result))
    (succeeded : result ≠ .fail) :
    Registered md5 after.wordDb listed ∧
      (answeredId result).getD unknownWord = lookup listed (cutWord string) := by
  obtain ⟨rfl, afterwards⟩ := Words.call_registered registered isCalled succeeded
  simp only [Lexicon.Call.answer] at afterwards ⊢
  cases isNonempty : Lexicon.nonempty (cutWord string) with
  | false =>
    have isEmpty : cutWord string = [] := by simpa [Lexicon.nonempty] using isNonempty
    rw [isNonempty] at afterwards
    exact ⟨afterwards, (if_neg fun known => known.1 isEmpty).symm⟩
  | true =>
    have notEmpty : cutWord string ≠ [] := by simpa [Lexicon.nonempty] using isNonempty
    simp only [isNonempty, if_true] at afterwards ⊢
    cases isIndex : listed.idxOf? (cutWord string) with
    | some index =>
      rw [isIndex] at afterwards
      obtain ⟨isListed, isPosition⟩ := position_of_idxOf? isIndex
      exact ⟨afterwards, isPosition.symm.trans (if_pos ⟨notEmpty, isListed⟩).symm⟩
    | none =>
      rw [isIndex] at afterwards
      have isNew := List.idxOf?_eq_none_iff.mp isIndex
      exact ⟨afterwards, (if_neg fun known => isNew known.2).symm⟩

theorem Words.serves_getWordid (string : List UInt8)
    (registered : Registered md5 words.wordDb listed)
    (isPlaced : (Lexicon.newVbOffset (mmap words.calls) words.wordDb).2.isSome = true) :
    Words.serves md5 mmap [.getWordid string] words = true := by
  suffices ∃ wordDb result, Lexicon.getWordid md5 (mmap words.calls) words.wordDb string =
      some (wordDb, result) ∧ result ≠ .fail by
    obtain ⟨wordDb, result, ran, succeeded⟩ := this
    simp [Words.serves, Words.call, Lexicon.Call.run, ran, succeeded]
  obtain ⟨wordOffset, isOffset⟩ := Option.isSome_iff_exists.mp isPlaced
  have place := Lexicon.newVbOffset_placed registered.indexed.storage (Prod.ext rfl isOffset)
  obtain ⟨probed, written, probe, -⟩ :=
    place.variableWrite (Lexicon.cutWord_short string) (Lexicon.cutWord_nonzero string)
  have searched := registered.indexed.search probe (Lexicon.cutWord_short string) (mmap words.calls)
  rw [Lexicon.getWordid]
  split
  · exact ⟨_, _, rfl, by simp⟩
  · rw [Lexicon.lexiconIndexGet, ← Prod.eta (Lexicon.newVbOffset _ _), isOffset]
    simp only [written, probe.hash_eq, searched]
    cases listed.idxOf? (cutWord string) with
    | none => exact ⟨_, _, rfl, by simp⟩
    | some index => exact ⟨_, _, rfl, by simp⟩

theorem Words.indexEachDoc_spec (wordhitSize : Nat) (indexWords : List Indexer.IndexWord)
    (idx : Nat) {hitWords : List Indexer.IndexWord}
    (areHits : (indexWords.filter fun indexWord => !indexWord.isNull).take (wordhitSize - idx) =
      hitWords)
    (registered : Registered md5 words.wordDb listed)
    (serves : Words.serves md5 mmap (hitWords.map (fun indexWord =>
      .getNewWordid indexWord.string) ++ rest) words = true) :
    ∃ after later, listed <+: later ∧ (∀ indexWord ∈ hitWords, indexWord.string ∈ later) ∧
      words.indexEachDoc md5 mmap wordhitSize indexWords idx =
        some (after, hitWords.map (Indexer.wordHitOf (position later))) ∧
      Registered md5 after.wordDb later ∧ Words.serves md5 mmap rest after = true := by
  induction indexWords generalizing idx words listed hitWords with
  | nil =>
    obtain rfl : hitWords = [] := by rw [← areHits, List.filter_nil, List.take_nil]
    exact ⟨words, listed, List.prefix_refl _, fun _ isHit => absurd isHit List.not_mem_nil, rfl,
      registered, serves⟩
  | cons indexWord indexWords ih =>
    rw [Words.indexEachDoc]
    by_cases full : wordhitSize ≤ idx
    · obtain rfl : hitWords = [] := by rw [← areHits, Nat.sub_eq_zero_of_le full, List.take_zero]
      rw [if_pos full]
      exact ⟨words, listed, List.prefix_refl _, fun _ isHit => absurd isHit List.not_mem_nil, rfl,
        registered, serves⟩
    · rw [if_neg full]
      cases isNull : indexWord.isNull with
      | true =>
        rw [List.filter_cons_of_neg (by simp [isNull])] at areHits
        exact ih idx areHits registered serves
      | false =>
        rw [List.filter_cons_of_pos (by simp [isNull]),
          show wordhitSize - idx = (wordhitSize - (idx + 1)) + 1 by omega,
          List.take_succ_cons] at areHits
        subst areHits
        obtain ⟨next, result, isCalled, succeeded, servesLater⟩ := Words.serves_cons serves
        have notEmpty : indexWord.string ≠ [] := string_ne_nil isNull
        obtain ⟨known, grown, isKnown, registeredNext, isId⟩ :=
          Words.call_getNewWordid (cutWord_string indexWord) notEmpty registered isCalled succeeded
        obtain ⟨after, later, grownLater, areListed, isIndexed, registeredLater, servesRest⟩ :=
          ih (idx + 1) rfl registeredNext servesLater
        have samePlace := position_grown grownLater isKnown
        refine ⟨after, later, grown.trans grownLater, List.forall_mem_cons.mpr
          ⟨grownLater.subset isKnown, areListed⟩, ?_, registeredLater, servesRest⟩
        simp only [Bool.false_eq_true, if_false, isCalled, isId, isIndexed, Option.bind_eq_bind,
          Option.bind_some, List.map_cons, Indexer.wordHitOf, samePlace]

theorem Query.push_spec (query : Query) (registered : Registered md5 words.wordDb listed)
    (serves : Words.serves md5 mmap (query.strings.map .getWordid ++ rest) words = true) :
    ∃ after, query.push md5 mmap words = some (after, query.cut.nodes (lookup listed)) ∧
      Registered md5 after.wordDb listed ∧ Words.serves md5 mmap rest after = true := by
  induction query generalizing words rest with
  | word string field =>
    obtain ⟨after, result, isCalled, succeeded, later⟩ := Words.serves_cons serves
    obtain ⟨registeredNext, isId⟩ := Words.call_getWordid registered isCalled succeeded
    refine ⟨after, ?_, registeredNext, later⟩
    simp only [Query.push, isCalled, Option.bind_eq_bind, Option.bind_some, isId, Query.cut,
      Query.nodes]
  | and left right ihLeft ihRight | or left right ihLeft ihRight =>
    rw [Query.strings, List.map_append, List.append_assoc] at serves
    obtain ⟨next, isLeft, registeredNext, servesNext⟩ := ihLeft registered serves
    obtain ⟨after, isRight, registeredLater, servesRest⟩ := ihRight registeredNext servesNext
    refine ⟨after, ?_, registeredLater, servesRest⟩
    simp only [Query.push, isLeft, isRight, Option.bind_eq_bind, Option.bind_some, Query.cut,
      Query.nodes]

end Calls

section Numbers

variable {build : Build} {wordid other : List UInt8 → Nat} {documents : List Document}
  {results : List Saved} {listed : List (List UInt8)}

theorem inverts_congr {document : Document} {appends : List IndexdbAppend}
    (same : ∀ string ∈ document.strings, other string = wordid string)
    (inverts : Inverts build wordid document appends) : Inverts build other document appends where
  once := inverts.once
  words := fun id => (inverts.words id).trans (exists_congr fun string =>
    and_congr_right fun isString => by rw [same string isString])
  entries := inverts.entries
  hits := fun append isAppend string isString isId =>
    inverts.hits append isAppend string isString ((same string isString).symm.trans isId)

theorem Indexed.congr
    (same : ∀ document ∈ documents, ∀ string ∈ document.strings, other string = wordid string)
    (indexed : Indexed build wordid documents results) :
    Indexed build other documents results := by
  induction indexed with
  | nil => exact .nil
  | cons saves _ ih =>
    obtain ⟨sameHere, sameLater⟩ := List.forall_mem_cons.mp same
    exact .cons ⟨inverts_congr sameHere saves.1, saves.2⟩ (ih sameLater)

theorem numbering_lookup (strings : List (List UInt8))
    (areListed : ∀ document ∈ documents, ∀ string ∈ document.strings, string ∈ listed) :
    Numbering (position (listed ++ strings)) (lookup listed) documents strings where
  distinct := by
    have isKnown : ∀ string, string ∈ strings ∨ (∃ document ∈ documents,
        string ∈ document.strings) → string ∈ listed ++ strings := by
      rintro string (isString | ⟨document, isIn, isString⟩)
      · exact List.mem_append_right _ isString
      · exact List.mem_append_left _ (areListed document isIn string isString)
    intro first isFirst second _ same
    exact (List.idxOf_inj (isKnown first isFirst)).mp (Nat.succ.inj same)
  known := by
    intro string _
    by_cases isKnown : string ≠ [] ∧ string ∈ listed
    · refine .inl ⟨(if_pos isKnown).trans ?_, Nat.succ_ne_zero _⟩
      exact (position_grown (List.prefix_append _ _) isKnown.2).symm
    · exact .inr ⟨if_neg isKnown, fun document isIn isString =>
        isKnown ⟨ne_nil_of_mem_strings isString, areListed document isIn string isString⟩⟩

end Numbers

section Sessions

variable {md5 : List UInt8 → Hash.HashKey} {mmap : Nat → Lexicon.Env} {build : Build}
  {overshift : UInt8 → BitVec 32} {indexdbAppend : IndexdbAppend → Bool} {maxDocHitsSize : Nat}
  {engine : Engine} {documents : List Document} {listed : List (List UInt8)}
  {rest : List Lexicon.Call}

variable (md5 build) in
/-- The engine has the documents inverted under the positions of the registered words. -/
structure Keeps (engine : Engine) (documents : List Document) (listed : List (List UInt8)) :
    Prop where
  registered : Registered md5 engine.words.wordDb listed
  areListed : ∀ document ∈ documents, ∀ string ∈ document.strings, string ∈ listed
  saves : ∃ results, engine.appends = results.flatMap Saved.appends ∧
    Indexed build (position listed) documents results
  sized : Indexer.Sized build engine.dochits

theorem Keeps.index (appendsSucceed : ∀ append, indexdbAppend append = true)
    (keeps : Keeps md5 build engine documents listed) (document : Document)
    (fits : FieldsFit build document)
    (serves : Words.serves md5 mmap ((Event.index document).calls ++ rest) engine.words = true) :
    ∃ after later, engine.step md5 mmap build overshift indexdbAppend maxDocHitsSize
        (.index document) = some after ∧
      Keeps md5 build after (documents ++ [document]) later ∧
      Words.serves md5 mmap rest after.words = true := by
  obtain ⟨words, later, grown, areHits, isIndexed, registered, servesLater⟩ :=
    Words.indexEachDoc_spec document.wordhitLen document.indexWords 0 rfl keeps.registered serves
  have areStrings : ∀ string ∈ document.strings, string ∈ later := by
    rintro string ⟨indexWord, isHit, rfl⟩
    exact areHits indexWord isHit
  have distinct : Set.InjOn (position later) document.strings :=
    fun first isFirst second _ same =>
      (List.idxOf_inj (areStrings first isFirst)).mp (Nat.succ.inj same)
  have numbered : ∀ string, (some ∘ position later) string = some (position later string) :=
    fun _ => rfl
  have isRun : ∃ saved, Indexer.saveToIndexdb build overshift indexdbAppend
        (some ∘ position later) document engine.dochits = .ok saved ∧
      saved.success = true ∧ Indexer.Sized build saved.dochits ∧
      (Inverts build (position later) document saved.appends ↔ FieldsFit build document) :=
    Indexer.saveToIndexdb_spec appendsSucceed numbered document distinct keeps.sized
  obtain ⟨saved, isSaved, -, sized, inverts⟩ := isRun
  rw [Indexer.saveToIndexdb, Indexer.indexEachDoc_eq numbered] at isSaved
  obtain ⟨results, isAppends, indexed⟩ := keeps.saves
  have samePlaces : Indexed build (position later) documents results :=
    indexed.congr fun other isIn string isString =>
      position_grown grown (keeps.areListed other isIn string isString)
  refine ⟨⟨words, saved.dochits, engine.appends ++ saved.appends, engine.pool⟩, later, ?_,
    ⟨registered, ?_, ⟨results ++ [saved], ?_, ?_⟩, sized⟩, servesLater⟩
  · simp only [Engine.step, isIndexed, Option.bind_eq_bind, Option.bind_some, isSaved,
      Except.toOption]
  · intro other isIn string isString
    rcases List.mem_append.mp isIn with earlier | isNew
    · exact grown.subset (keeps.areListed other earlier string isString)
    · obtain rfl := List.mem_singleton.mp isNew
      exact areStrings string isString
  · rw [isAppends, List.flatMap_append, List.flatMap_singleton]
  · exact List.rel_append samePlaces (.cons ⟨inverts.mpr fits, saveRuns_few isSaved⟩ .nil)

theorem Keeps.finds (keeps : Keeps md5 build engine documents listed)
    (increasing : (documents.map Document.docid).Pairwise (· < ·))
    (room : documents.length * maxDochits ≤ maxDocHitsSize) (query : Query)
    (serves : Words.serves md5 mmap ((Event.search query).calls ++ rest) engine.words = true) :
    ∃ words nodes, query.push md5 mmap engine.words = some (words, nodes) ∧
      Finds (indexEnv maxDocHitsSize engine.appends) documents.length nodes engine.pool
        (found build documents query.cut) ∧
      Registered md5 words.wordDb listed ∧ Words.serves md5 mmap rest words = true := by
  obtain ⟨words, isPushed, registered, servesLater⟩ :=
    Query.push_spec query keeps.registered serves
  obtain ⟨results, isAppends, indexed⟩ := keeps.saves
  have placed : Indexed build (position (listed ++ query.cut.strings)) documents results :=
    indexed.congr fun other isIn string isString =>
      position_grown (List.prefix_append _ _) (keeps.areListed other isIn string isString)
  refine ⟨words, _, isPushed, ?_, registered, servesLater⟩
  rw [isAppends]
  exact (numbering_lookup query.cut.strings keeps.areListed).finds placed increasing
    (fun string _ => (placed.length_le _).trans room) engine.pool

theorem Keeps.search (keeps : Keeps md5 build engine documents listed)
    (increasing : (documents.map Document.docid).Pairwise (· < ·))
    (room : documents.length * maxDochits ≤ maxDocHitsSize) (query : Query)
    (serves : Words.serves md5 mmap ((Event.search query).calls ++ rest) engine.words = true) :
    ∃ after, engine.step md5 mmap build overshift indexdbAppend maxDocHitsSize
        (.search query) = some after ∧
      Keeps md5 build after documents listed ∧
      Words.serves md5 mmap rest after.words = true := by
  obtain ⟨words, nodes, isPushed, ⟨outcome, _, isDone, _⟩, registered, servesLater⟩ :=
    keeps.finds increasing room query serves
  refine ⟨{ engine with words := words, pool := outcome.pool }, ?_,
    ⟨registered, keeps.areListed, keeps.saves, keeps.sized⟩, servesLater⟩
  simp only [Engine.step, isPushed, isDone, Option.bind_eq_bind, Option.bind_some]

theorem Keeps.run (appendsSucceed : ∀ append, indexdbAppend append = true)
    (keeps : Keeps md5 build engine documents listed) (events : List Event)
    (fits : ∀ document ∈ documentsOf events, FieldsFit build document)
    (increasing : ((documents ++ documentsOf events).map Document.docid).Pairwise (· < ·))
    (room : (documents ++ documentsOf events).length * maxDochits ≤ maxDocHitsSize)
    (serves : Words.serves md5 mmap (events.flatMap Event.calls ++ rest) engine.words = true) :
    ∃ after later, runSchedule (Engine.step md5 mmap build overshift indexdbAppend
        maxDocHitsSize) engine events = some after ∧
      Keeps md5 build after (documents ++ documentsOf events) later ∧
      Words.serves md5 mmap rest after.words = true := by
  induction events generalizing engine documents listed with
  | nil =>
    refine ⟨engine, listed, rfl, ?_, serves⟩
    rwa [documentsOf, List.filterMap_nil, List.append_nil]
  | cons event events ih =>
    rw [List.flatMap_cons, List.append_assoc] at serves
    cases event with
    | index document =>
      have inOrder : documents ++ documentsOf (.index document :: events) =
          documents ++ [document] ++ documentsOf events := by
        rw [List.append_assoc]
        rfl
      rw [inOrder] at increasing room ⊢
      obtain ⟨fitsHere, fitsLater⟩ := List.forall_mem_cons.mp fits
      obtain ⟨next, known, isStep, keepsNext, servesNext⟩ :=
        keeps.index appendsSucceed document fitsHere serves
      obtain ⟨after, later, ran, keepsLater, servesLater⟩ :=
        ih keepsNext fitsLater increasing room servesNext
      refine ⟨after, later, ?_, keepsLater, servesLater⟩
      rw [runSchedule, isStep]
      exact ran
    | search query =>
      have isOrdered := increasing
      rw [List.map_append] at isOrdered
      have fewer : documents.length * maxDochits ≤ maxDocHitsSize :=
        (Nat.mul_le_mul_right _ (List.sublist_append_left _ _).length_le).trans room
      obtain ⟨next, isStep, keepsNext, servesNext⟩ :=
        keeps.search (List.pairwise_append.mp isOrdered).1 fewer query serves
      obtain ⟨after, later, ran, keepsLater, servesLater⟩ :=
        ih keepsNext fits increasing room servesNext
      refine ⟨after, later, ?_, keepsLater, servesLater⟩
      rw [runSchedule, isStep]
      exact ran

/-- A document with the word "a". -/
def letterDocument : Document := ⟨7, 10, [⟨[97], 0, 1⟩]⟩

end Sessions

end Wisebot.Qp
