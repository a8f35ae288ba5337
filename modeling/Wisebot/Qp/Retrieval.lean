import Wisebot.Indexer.Inversion
import Wisebot.Qp.Boolean
import Wisebot.Qpp.Infix
import Wisebot.Rmac.Postings

namespace Wisebot.Qp

open Wisebot.Lib (Reach runSchedule)

open Wisebot.Indexer (Build Document IndexdbAppend Saved Inverts FieldsFit saveRuns fillDochit
  fillDochitFrom saveToIndexdb saveDocuments maxDochits)

/-! Searches over the index that `save_to_indexdb` has made of documents: which of them are
found. -/

def entryOf (dochit : Indexer.DocHit) : DocHit := ⟨dochit.id, dochit.field⟩

def appended (appends : List IndexdbAppend) (wordid : Nat) : List DocHit :=
  (appends.filter fun append => append.wordid = wordid).flatMap fun append =>
    append.dochits.map entryOf

/-- The index after the appends; a word without one has no file. -/
def indexEnv (maxDocHitsSize : Nat) (appends : List IndexdbAppend) : Env where
  maxDocHitsSize := maxDocHitsSize
  posting := fun wordid =>
    if ∃ append ∈ appends, append.wordid = wordid then .entries (appended appends wordid)
    else .absent

theorem hits_posting (maxDocHitsSize : Nat) (appends : List IndexdbAppend) (wordid : Nat) :
    ((indexEnv maxDocHitsSize appends).posting wordid).hits =
      some (appended appends wordid) := by
  by_cases hasFile : ∃ append ∈ appends, append.wordid = wordid
  · exact congrArg Posting.hits (if_pos hasFile)
  · have noAppend : appends.filter (fun append => append.wordid = wordid) = [] :=
      List.filter_eq_nil_iff.mpr fun append member same =>
        hasFile ⟨append, member, of_decide_eq_true same⟩
    rw [appended, noAppend]
    exact congrArg Posting.hits (if_neg hasFile)

theorem mem_appended {appends : List IndexdbAppend} {wordid : Nat} {hit : DocHit} :
    hit ∈ appended appends wordid ↔ ∃ append ∈ appends, append.wordid = wordid ∧
      ∃ dochit ∈ append.dochits, entryOf dochit = hit := by
  simp [appended, and_assoc]

/-- Words with the fields they are looked for in, by `AND` and `OR`. -/
inductive Query where
  | word (string : List UInt8) (field : BitVec 32)
  | and (left right : Query)
  | or (left right : Query)

def Query.nodes (getWord : List UInt8 → Nat) : Query → List QueryNode
  | .word string field => [.operand (getWord string) field false]
  | .and left right => left.nodes getWord ++ right.nodes getWord ++ [.operator .and 2]
  | .or left right => left.nodes getWord ++ right.nodes getWord ++ [.operator .or 2]

def Query.strings : Query → List (List UInt8)
  | .word string _ => [string]
  | .and left right | .or left right => left.strings ++ right.strings

/-- The index keeps an occurrence of the word in one of the fields. -/
def Has (build : Build) (document : Document) (string : List UInt8) (field : BitVec 32) : Prop :=
  ∃ indexWord ∈ (document.occurrences string).take (maxDochits * build.stdHitsLen),
    field = BitVec.allOnes 32 ∨ field.getLsbD indexWord.field.toNat = true

def Query.Holds (build : Build) (document : Document) : Query → Prop
  | .word string field => Has build document string field
  | .and left right => left.Holds build document ∧ right.Holds build document
  | .or left right => left.Holds build document ∨ right.Holds build document

def found (build : Build) (documents : List Document) (query : Query) : Set Nat :=
  { id | ∃ document ∈ documents, document.docid = id ∧ query.Holds build document }

theorem fillDochitFrom_count {build : Build} {overshift : UInt8 → BitVec 32}
    {docid room dochitIdx count : Nat} {wordhits : List Indexer.WordHit}
    {dochits filled : List Indexer.DocHit}
    (ran : fillDochitFrom build overshift docid room dochitIdx wordhits dochits =
      .ok (count, filled)) : count ≤ dochitIdx + room := by
  induction room generalizing dochitIdx wordhits dochits with
  | zero =>
    cases ran
    exact Nat.le_refl _
  | succ room ih =>
    rw [fillDochitFrom] at ran
    split at ran
    · cases ran
      exact Nat.le_add_right _ _
    · split at ran
      · cases ran
      · simp only [bind, Except.bind] at ran
        split at ran
        · cases ran
        · have fewer := ih ran
          omega

theorem saveRuns_few {build : Build} {overshift : UInt8 → BitVec 32}
    {indexdbAppend : IndexdbAppend → Bool} {docid fuel : Nat} {wordhits : List Indexer.WordHit}
    {dochits : List Indexer.DocHit} {saved : Saved}
    (ran : saveRuns build overshift indexdbAppend docid fuel wordhits dochits = .ok saved) :
    ∀ append ∈ saved.appends, append.dochits.length ≤ maxDochits := by
  induction fuel generalizing wordhits dochits saved with
  | zero =>
    cases wordhits with
    | nil =>
      cases ran
      exact fun append member => absurd member List.not_mem_nil
    | cons first rest => cases ran
  | succ fuel ih =>
    cases wordhits with
    | nil =>
      cases ran
      exact fun append member => absurd member List.not_mem_nil
    | cons first rest =>
      rw [saveRuns] at ran
      simp only [bind, Except.bind] at ran
      split at ran
      · cases ran
      next filling isFilled =>
        have few := fillDochitFrom_count isFilled
        rw [Nat.zero_add] at few
        split at ran
        · split at ran
          · split at ran
            · cases ran
            next later isLater =>
              cases ran
              intro append member
              rcases List.mem_cons.mp member with rfl | member
              · exact (List.length_take_le _ _).trans few
              · exact ih isLater append member
          · cases ran
            exact fun append member => absurd member List.not_mem_nil
        · cases ran

theorem meets_iff {hit : DocHit} {field : BitVec 32} :
    meets hit field = true ↔
      ∃ bit, hit.field.getLsbD bit = true ∧ field.getLsbD bit = true := by
  have noBit : ∀ bit, (0 : BitVec 32).getLsbD bit = false := fun _ => BitVec.getLsbD_zero
  rw [meets, decide_eq_true_iff]
  constructor
  · intro notZero
    by_contra none
    refine notZero (BitVec.eq_of_getLsbD_eq fun bit _ => ?_)
    rw [BitVec.getLsbD_and, noBit, Bool.eq_false_iff]
    exact fun both => none ⟨bit, Bool.and_eq_true_iff.mp both⟩
  · rintro ⟨bit, isHit, isField⟩ isZero
    have both : (hit.field &&& field).getLsbD bit = true := by
      rw [BitVec.getLsbD_and, isHit, isField]
      rfl
    rw [isZero, noBit] at both
    cases both

section Documents

variable {build : Build} {wordid : List UInt8 → Nat} {document : Document}
  {appends : List IndexdbAppend}

theorem taken_appended_iff (inverts : Inverts build wordid document appends)
    {string : List UInt8}
    (distinct : ∀ other ∈ document.strings, wordid other = wordid string → other = string)
    (field : BitVec 32) :
    (∃ hit ∈ appended appends (wordid string), taken hit field) ↔
      Has build document string field := by
  have someKept : 0 < maxDochits * build.stdHitsLen :=
    Nat.mul_pos (by decide) build.stdHitsLen_pos
  constructor
  · rintro ⟨hit, isHit, isTaken⟩
    obtain ⟨append, isAppend, same, dochit, isDochit, rfl⟩ := mem_appended.mp isHit
    obtain ⟨other, isString, sameId⟩ :=
      (inverts.words append.wordid).mp (List.mem_map_of_mem isAppend)
    obtain rfl := distinct other isString (sameId.trans same)
    rcases isTaken with all | isMet
    · obtain ⟨indexWord, isWord, isSame⟩ := isString
      have notEmpty : (document.occurrences other).take (maxDochits * build.stdHitsLen) ≠ [] := by
        rw [ne_eq, List.take_eq_nil_iff, not_or]
        exact ⟨someKept.ne', List.ne_nil_of_mem
          (List.mem_filter.mpr ⟨isWord, decide_eq_true isSame⟩)⟩
      obtain ⟨kept, isKept⟩ := List.exists_mem_of_ne_nil _ notEmpty
      exact ⟨kept, isKept, .inl all⟩
    · obtain ⟨bit, isBit, isField⟩ := meets_iff.mp isMet
      obtain ⟨counted, isCounted, rfl⟩ :=
        ((inverts.entries append isAppend dochit isDochit).2.2.2 bit).mp isBit
      have isPlace := List.mem_map_of_mem (f := Indexer.StandardHit.place)
        (List.mem_flatMap.mpr ⟨dochit, isDochit, isCounted⟩)
      rw [inverts.hits append isAppend other isString sameId, ← List.map_take] at isPlace
      obtain ⟨indexWord, isKept, samePlace⟩ := List.mem_map.mp isPlace
      refine ⟨indexWord, isKept, .inr ?_⟩
      rw [show indexWord.field.toNat = counted.field.toNat from congrArg Prod.fst samePlace]
      exact isField
  · rintro ⟨indexWord, isKept, wanted⟩
    have isOccurrence := List.mem_filter.mp (List.mem_of_mem_take isKept)
    have isString : string ∈ document.strings :=
      ⟨indexWord, isOccurrence.1, of_decide_eq_true isOccurrence.2⟩
    obtain ⟨append, isAppend, same⟩ :=
      List.mem_map.mp ((inverts.words (wordid string)).mpr ⟨string, isString, rfl⟩)
    have isPlace : indexWord.place ∈
        (append.dochits.flatMap Indexer.DocHit.counted).map Indexer.StandardHit.place := by
      rw [inverts.hits append isAppend string isString same.symm, ← List.map_take]
      exact List.mem_map_of_mem isKept
    obtain ⟨counted, isCounted, samePlace⟩ := List.mem_map.mp isPlace
    obtain ⟨dochit, isDochit, isCounted⟩ := List.mem_flatMap.mp isCounted
    refine ⟨entryOf dochit, mem_appended.mpr ⟨append, isAppend, same, dochit, isDochit, rfl⟩,
      wanted.imp id fun isField => meets_iff.mpr ⟨indexWord.field.toNat, ?_, isField⟩⟩
    exact ((inverts.entries append isAppend dochit isDochit).2.2.2 _).mpr
      ⟨counted, isCounted, congrArg Prod.fst samePlace⟩

theorem appended_document (inverts : Inverts build wordid document appends)
    (few : ∀ append ∈ appends, append.dochits.length ≤ maxDochits) (id : Nat) :
    (∀ hit ∈ appended appends id, hit.id = document.docid) ∧
      (appended appends id).length ≤ maxDochits := by
  constructor
  · intro hit isHit
    obtain ⟨append, isAppend, -, dochit, isDochit, rfl⟩ := mem_appended.mp isHit
    exact (inverts.entries append isAppend dochit isDochit).1
  · have once := inverts.once.sublist
      ((List.filter_sublist (p := fun append => decide (append.wordid = id))).map _)
    have same : ∀ append ∈ appends.filter (fun append => append.wordid = id),
        append ∈ appends ∧ append.wordid = id := fun append member =>
      (List.mem_filter.mp member).imp_right of_decide_eq_true
    rw [appended]
    generalize appends.filter (fun append => append.wordid = id) = files at once same ⊢
    rcases files with _ | ⟨first, _ | ⟨second, rest⟩⟩
    · exact Nat.zero_le _
    · simpa using few first (same first List.mem_cons_self).1
    · refine absurd ?_ (List.nodup_cons.mp once).1
      rw [(same first List.mem_cons_self).2,
        ← (same second (List.mem_cons_of_mem _ List.mem_cons_self)).2]
      exact List.mem_cons_self

def Indexed (build : Build) (wordid : List UInt8 → Nat) : List Document → List Saved → Prop :=
  List.Forall₂ fun document saved => Inverts build wordid document saved.appends ∧
    ∀ append ∈ saved.appends, append.dochits.length ≤ maxDochits

variable {documents : List Document} {results : List Saved}

theorem appended_append (first second : List IndexdbAppend) (id : Nat) :
    appended (first ++ second) id = appended first id ++ appended second id := by
  rw [appended, List.filter_append, List.flatMap_append]
  rfl

theorem Indexed.docids (indexed : Indexed build wordid documents results) (id : Nat) :
    ∀ hit ∈ appended (results.flatMap Saved.appends) id,
      ∃ document ∈ documents, document.docid = hit.id := by
  induction indexed with
  | nil => exact fun hit member => absurd member List.not_mem_nil
  | cons saves _ ih =>
    intro hit member
    rw [List.flatMap_cons, appended_append, List.mem_append] at member
    rcases member with here | later
    · exact ⟨_, List.mem_cons_self, ((appended_document saves.1 saves.2 id).1 hit here).symm⟩
    · obtain ⟨document, isIn, same⟩ := ih hit later
      exact ⟨document, List.mem_cons_of_mem _ isIn, same⟩

theorem Indexed.formed (indexed : Indexed build wordid documents results)
    (increasing : (documents.map Document.docid).Pairwise (· < ·)) (id : Nat) :
    Formed (appended (results.flatMap Saved.appends) id) := by
  induction indexed with
  | nil => exact formed_nil
  | @cons document saved documents results saves others ih =>
    obtain ⟨least, increasing⟩ := List.pairwise_cons.mp increasing
    obtain ⟨isId, few⟩ := appended_document saves.1 saves.2 id
    have formed := ih increasing
    have above : ∀ hit ∈ appended (results.flatMap Saved.appends) id,
        document.docid < hit.id := by
      intro hit member
      obtain ⟨other, isIn, same⟩ := Indexed.docids others id hit member
      exact same ▸ least _ (List.mem_map_of_mem isIn)
    rw [List.flatMap_cons, appended_append]
    constructor
    · refine List.pairwise_append.mpr ⟨?_, formed.sorted, fun hit here other later => ?_⟩
      · exact List.pairwise_of_forall_mem_list fun hit here other also =>
          ((isId hit here).trans (isId other also).symm).le
      · exact (isId hit here).trans_le (above other later).le
    · intro docid
      rw [List.filter_append, List.length_append]
      by_cases same : docid = document.docid
      · have noneLater : (appended (results.flatMap Saved.appends) id).filter
            (fun hit => hit.id = docid) = [] :=
          List.filter_eq_nil_iff.mpr fun hit later isSame =>
            (above hit later).ne' ((of_decide_eq_true isSame).trans same)
        rw [noneLater]
        exact (List.length_filter_le _ _).trans (few.trans (by decide))
      · have noneHere : (appended saved.appends id).filter (fun hit => hit.id = docid) = [] :=
          List.filter_eq_nil_iff.mpr fun hit here isSame =>
            same ((of_decide_eq_true isSame).symm.trans (isId hit here))
        rw [noneHere, List.length_nil, Nat.zero_add]
        exact formed.few docid

theorem Indexed.length_le (indexed : Indexed build wordid documents results) (id : Nat) :
    (appended (results.flatMap Saved.appends) id).length ≤ documents.length * maxDochits := by
  induction indexed with
  | nil => exact Nat.zero_le _
  | cons saves _ ih =>
    have few := (appended_document saves.1 saves.2 id).2
    rw [List.flatMap_cons, appended_append, List.length_append, List.length_cons, Nat.succ_mul]
    omega

theorem Indexed.taken_iff (indexed : Indexed build wordid documents results)
    {string : List UInt8} (distinct : ∀ document ∈ documents, ∀ other ∈ document.strings,
      wordid other = wordid string → other = string) (field : BitVec 32) (docid : Nat) :
    (∃ hit ∈ appended (results.flatMap Saved.appends) (wordid string),
      hit.id = docid ∧ taken hit field) ↔ docid ∈ found build documents (.word string field) := by
  induction indexed with
  | nil => simp [appended, found]
  | @cons document saved documents results saves _ ih =>
    obtain ⟨distinct, distinctLater⟩ := List.forall_mem_cons.mp distinct
    have here : (∃ hit ∈ appended saved.appends (wordid string), hit.id = docid ∧
        taken hit field) ↔ document.docid = docid ∧ Has build document string field := by
      rw [← taken_appended_iff saves.1 distinct field]
      have isId := (appended_document saves.1 saves.2 (wordid string)).1
      constructor
      · rintro ⟨hit, isHit, isDoc, isTaken⟩
        exact ⟨(isId hit isHit).symm.trans isDoc, hit, isHit, isTaken⟩
      · rintro ⟨isDoc, hit, isHit, isTaken⟩
        exact ⟨hit, isHit, (isId hit isHit).trans isDoc, isTaken⟩
    have split : docid ∈ found build (document :: documents) (.word string field) ↔
        (document.docid = docid ∧ Has build document string field) ∨
          docid ∈ found build documents (.word string field) := by
      simp only [found, Set.mem_ofPred_eq, List.exists_mem_cons_iff]
      rfl
    rw [split, ← here, ← ih distinctLater, List.flatMap_cons, appended_append]
    simp only [List.mem_append, or_and_right, exists_or]

end Documents

section Searches

variable {build : Build} {documents : List Document} {env : Env} {getWord : List UInt8 → Nat}

theorem denote_nodes (increasing : (documents.map Document.docid).Pairwise (· < ·))
    (query : Query)
    (words : ∀ string ∈ query.strings, ∀ field,
      operandDocs env taken (getWord string) field = found build documents (.word string field))
    (rest : List QueryNode) (stack : List (Set Nat)) :
    denote env taken (query.nodes getWord ++ rest) stack =
      denote env taken rest (found build documents query :: stack) := by
  have onlyOne : ∀ first ∈ documents, ∀ second ∈ documents, first.docid = second.docid →
      first = second := fun first isFirst second isSecond same =>
    List.inj_on_of_nodup_map (increasing.imp Nat.ne_of_lt) isFirst isSecond same
  induction query generalizing rest stack with
  | word string field =>
    rw [Query.nodes, List.singleton_append, denote, if_neg Bool.false_ne_true,
      words string List.mem_cons_self]
  | and left right ihLeft ihRight =>
    rw [Query.nodes, List.append_assoc, List.append_assoc,
      ihLeft fun string member => words string (List.mem_append_left _ member),
      ihRight fun string member => words string (List.mem_append_right _ member)]
    have both : interAll [found build documents right, found build documents left] =
        found build documents (.and left right) := by
      ext id
      simp only [interAll, found, Query.Holds, List.mem_cons, List.not_mem_nil, or_false,
        forall_eq_or_imp, forall_eq, Set.mem_ofPred_eq]
      constructor
      · rintro ⟨⟨second, isSecond, rfl, isRight⟩, first, isFirst, same, isLeft⟩
        obtain rfl := onlyOne first isFirst second isSecond same
        exact ⟨first, isFirst, rfl, isLeft, isRight⟩
      · rintro ⟨document, isIn, isId, isLeft, isRight⟩
        exact ⟨⟨document, isIn, isId, isRight⟩, document, isIn, isId, isLeft⟩
    rw [← both]
    simp [denote]
  | or left right ihLeft ihRight =>
    rw [Query.nodes, List.append_assoc, List.append_assoc,
      ihLeft fun string member => words string (List.mem_append_left _ member),
      ihRight fun string member => words string (List.mem_append_right _ member)]
    have either : unionAll [found build documents right, found build documents left] =
        found build documents (.or left right) := by
      ext id
      simp only [unionAll, found, Query.Holds, List.mem_cons, List.not_mem_nil, or_false,
        exists_eq_or_imp, exists_eq_left, Set.mem_ofPred_eq]
      rw [or_comm, ← exists_or]
      simp only [← and_or_left]
    rw [← either]
    simp [denote]

end Searches

def wordsOf (document : Document) : List (List UInt8) :=
  document.indexWords.map Indexer.IndexWord.string

theorem mem_indexWords {document : Document} {indexWord : Indexer.IndexWord}
    (isHit : indexWord ∈ document.hitWords) : indexWord ∈ document.indexWords :=
  (List.mem_filter.mp (List.mem_of_mem_take isHit)).1

theorem mem_words {document : Document} {string : List UInt8}
    (isString : string ∈ document.strings) : string ∈ wordsOf document := by
  obtain ⟨indexWord, isHit, rfl⟩ := isString
  exact List.mem_map_of_mem (mem_indexWords isHit)

theorem fieldsFit_of_fields {build : Build} {documents : List Document}
    (small : ∀ document ∈ documents, ∀ indexWord ∈ document.indexWords,
      indexWord.field.toNat < 32) : ∀ document ∈ documents, FieldsFit build document :=
  fun document isIn _ _ indexWord isKept => small document isIn indexWord
    (mem_indexWords (List.mem_filter.mp (List.mem_of_mem_take isKept)).1)

section Answers

variable {build : Build} {wordid getWord : List UInt8 → Nat} {documents : List Document}
  {results : List Saved} {strings : List (List UInt8)} {maxDocHitsSize : Nat}

theorem saveDocuments_few {overshift : UInt8 → BitVec 32} {indexdbAppend : IndexdbAppend → Bool}
    {getNewWordid : List UInt8 → Option Nat} {dochits : List Indexer.DocHit}
    (ran : saveDocuments build overshift indexdbAppend getNewWordid documents dochits =
      .ok results) :
    ∀ saved ∈ results, ∀ append ∈ saved.appends, append.dochits.length ≤ maxDochits := by
  induction documents generalizing dochits results with
  | nil =>
    cases ran
    exact fun saved member => absurd member List.not_mem_nil
  | cons document documents ih =>
    simp only [saveDocuments, bind, Except.bind] at ran
    split at ran
    · cases ran
    next saved isSaved =>
      split at ran
      · cases ran
      next later isLater =>
        cases ran
        exact List.forall_mem_cons.mpr ⟨saveRuns_few isSaved, ih isLater⟩

/-- The word ids of documents and of the strings of a query: one for each string, and
where the query gets none, no document has the string. -/
structure Numbering (wordid getWord : List UInt8 → Nat) (documents : List Document)
    (strings : List (List UInt8)) : Prop where
  distinct : Set.InjOn wordid
    { string | string ∈ strings ∨ ∃ document ∈ documents, string ∈ document.strings }
  known : ∀ string ∈ strings, getWord string = wordid string ∧ wordid string ≠ unknownWord ∨
    getWord string = unknownWord ∧ ∀ document ∈ documents, string ∉ document.strings

theorem saveDocuments_indexed (overshift : UInt8 → BitVec 32)
    {indexdbAppend : IndexdbAppend → Bool} {getNewWordid : List UInt8 → Option Nat}
    (appendsSucceed : ∀ append, indexdbAppend append = true)
    (numbered : ∀ string, getNewWordid string = some (wordid string))
    (fits : ∀ document ∈ documents, FieldsFit build document)
    (numbering : Numbering wordid getWord documents strings) :
    ∃ results, saveDocuments build overshift indexdbAppend getNewWordid documents [] =
      .ok results ∧ Indexed build wordid documents results := by
  obtain ⟨results, ran, inverts⟩ := Indexer.saveDocuments_spec build wordid overshift
    indexdbAppend getNewWordid appendsSucceed numbered documents
    (fun document isIn => numbering.distinct.mono fun string isString =>
      .inr ⟨document, isIn, isString⟩) [] (by simp [Indexer.Sized])
  have fitted := (List.forall₂_and_left _ _).mpr ⟨fits, inverts⟩
  have both := ((List.forall₂_and_left _ _).mpr ⟨saveDocuments_few ran, fitted.flip⟩).flip
  exact ⟨results, ran, both.imp fun _ _ holds => ⟨holds.2.2.2.mpr holds.2.1, holds.1⟩⟩

theorem Numbering.operandDocs_eq (numbering : Numbering wordid getWord documents strings)
    (indexed : Indexed build wordid documents results) {string : List UInt8}
    (isString : string ∈ strings) (field : BitVec 32) :
    operandDocs (indexEnv maxDocHitsSize (results.flatMap Saved.appends)) taken
      (getWord string) field = found build documents (.word string field) := by
  ext id
  rcases numbering.known string isString with ⟨same, isKnown⟩ | ⟨isUnknown, nowhere⟩
  · rw [← indexed.taken_iff (fun document isIn other isOther sameId => numbering.distinct
      (.inr ⟨document, isIn, isOther⟩) (.inl isString) sameId) field id, same]
    constructor
    · rintro ⟨-, hits, isPosting, isTaken⟩
      obtain rfl := Option.some.inj ((hits_posting _ _ _).symm.trans isPosting)
      exact isTaken
    · exact fun isTaken => ⟨isKnown, _, hits_posting _ _ _, isTaken⟩
  · constructor
    · exact fun isFound => absurd isUnknown isFound.1
    · rintro ⟨document, isIn, -, indexWord, isKept, -⟩
      have isOccurrence := List.mem_filter.mp (List.mem_of_mem_take isKept)
      exact absurd ⟨indexWord, isOccurrence.1, of_decide_eq_true isOccurrence.2⟩
        (nowhere document isIn)

theorem Query.mem_nodes {query : Query} {id : Nat} {field : BitVec 32} {fake : Bool}
    (member : QueryNode.operand id field fake ∈ query.nodes getWord) :
    ∃ string ∈ query.strings, getWord string = id := by
  induction query with
  | word string wanted =>
    cases List.mem_singleton.mp member
    exact ⟨string, List.mem_cons_self, rfl⟩
  | and left right ihLeft ihRight | or left right ihLeft ihRight =>
    simp only [nodes, List.mem_append, List.mem_singleton, reduceCtorEq, or_false] at member
    simp only [strings, List.mem_append, or_and_right, exists_or]
    exact member.imp ihLeft ihRight

/-- The search succeeds with a sorted list, which has exactly the documents unless a
merge filled its buffer, as none does while there are few documents. -/
def Finds (env : Env) (count : Nat) (nodes : List QueryNode) (pool : List Hits)
    (docs : Set Nat) : Prop :=
  ∃ outcome list, doSearchOperation env nodes pool = some outcome ∧
    outcome.result = some list ∧
    (list.hits.Pairwise fun first second => first.id ≤ second.id) ∧
    (NoneFull env outcome.merged ∨ count * maxDochitsPerDocument < env.maxDocHitsSize →
      docids list.hits = docs)

theorem finds_of_denote {env : Env} {nodes : List QueryNode} {docs : Set Nat} (pool : List Hits)
    (good : GoodPostings env nodes) (denotes : denote env taken nodes [] = some [docs])
    {ids : Finset Nat} {count : Nat} (few : ids.card ≤ count)
    (within : OperandsWithin env nodes ids) : Finds env count nodes pool docs := by
  obtain ⟨⟨after, stack, merged⟩, ran, carries, stays⟩ :=
    operateNodes_spec ⟨pool, [], []⟩ good .nil denotes ids
  dsimp only at carries stays
  cases carries with
  | cons carried rest =>
    cases rest
    obtain ⟨hits, isContents, formed, isDocs⟩ := carried.holds
    obtain ⟨read, finalPool, reading, readAs⟩ := readIndexList_spec after isContents
    refine ⟨⟨some read, finalPool, merged⟩, read, ?_, rfl, ?_, ?_⟩
    · simp only [doSearchOperation, ran, reading]
    · rw [readAs.hits_eq]
      exact formed.sorted
    · rw [readAs.hits_eq]
      rintro (noneFull | capacity)
      · exact isDocs noneFull
      · have room : HasRoom env ids := (Nat.mul_le_mul_right _ few).trans_lt capacity
        exact isDocs (stays room within (fun _ isDoc => absurd isDoc List.not_mem_nil)
          fun _ isSize => absurd isSize List.not_mem_nil)

theorem Numbering.finds {query : Query}
    (numbering : Numbering wordid getWord documents query.strings)
    (indexed : Indexed build wordid documents results)
    (increasing : (documents.map Document.docid).Pairwise (· < ·))
    (room : ∀ string ∈ query.strings,
      (appended (results.flatMap Saved.appends) (getWord string)).length ≤ maxDocHitsSize)
    (pool : List Hits) :
    Finds (indexEnv maxDocHitsSize (results.flatMap Saved.appends)) documents.length
      (query.nodes getWord) pool (found build documents query) := by
  have few : (documents.map Document.docid).toFinset.card ≤ documents.length :=
    (List.toFinset_card_le _).trans_eq (List.length_map _)
  refine finds_of_denote pool ?_ ?_ few ?_
  · intro id field fake member _
    obtain ⟨string, isString, rfl⟩ := Query.mem_nodes member
    exact ⟨_, hits_posting _ _ _, room string isString, indexed.formed increasing _⟩
  · rw [← List.append_nil (query.nodes getWord)]
    exact denote_nodes increasing query
      (fun _ isString => numbering.operandDocs_eq indexed isString) [] []
  · intro id field fake member
    obtain ⟨string, isString, rfl⟩ := Query.mem_nodes member
    rw [numbering.operandDocs_eq indexed isString]
    rintro docid ⟨document, isIn, rfl, -⟩
    exact List.mem_toFinset.mpr (List.mem_map_of_mem isIn)

theorem Numbering.of_words
    (distinct : ∀ first ∈ strings ++ documents.flatMap wordsOf,
      ∀ second ∈ strings ++ documents.flatMap wordsOf,
        wordid first = wordid second → first = second)
    (known : ∀ string ∈ strings, getWord string = wordid string ∧ wordid string ≠ unknownWord) :
    Numbering wordid getWord documents strings where
  distinct := by
    have listed : ∀ string, string ∈ strings ∨ (∃ document ∈ documents,
        string ∈ document.strings) → string ∈ strings ++ documents.flatMap wordsOf := by
      rintro string (isString | ⟨document, isIn, isString⟩)
      · exact List.mem_append_left _ isString
      · exact List.mem_append_right _
          (List.mem_flatMap.mpr ⟨document, isIn, mem_words isString⟩)
    intro first isFirst second isSecond same
    exact distinct first (listed first isFirst) second (listed second isSecond) same
  known := fun string isString => .inl (known string isString)

end Answers

def searchNode : Qpp.QueryNode → QueryNode
  | .operand field opParam _ word =>
    .operand word.id.toNat field (decide (opParam = Qpp.fakeOpParam))
  | .operator .and numOfOperands => .operator .and numOfOperands
  | .operator .or numOfOperands => .operator .or numOfOperands

/-- The word id that `pushOperand` gives the node of a string. -/
def nodeWordid (config : Qpp.Config) (string : List UInt8) : Nat :=
  if (config.getWord string).1 < 0 then unknownWord else (config.getWord string).2.id.toNat

/-- The words of the tree as `pushOperand` looks them up. -/
def Query.ofTree (field : BitVec 32) : Qpp.DaumTree → Query
  | .word text => .word (Qpp.makeUpperLetter (text.take (Qpp.maxWordLen - 1))) field
  | .operator op left right =>
    if op = .and then .and (ofTree field left) (ofTree field right)
    else .or (ofTree field left) (ofTree field right)

section Analyzed

variable {config : Qpp.Config} {pStObj : Qpp.StateObj}

theorem searchNode_operandNode (notNatural : pStObj.naturalSearch = false)
    (notFake : pStObj.searchField ≠ Qpp.fakeOpParam) (text : List UInt8) :
    searchNode (Qpp.operandNode config pStObj text) =
      .operand (nodeWordid config (Qpp.makeUpperLetter text)) (Qpp.operandField config pStObj)
        false := by
  rw [Qpp.operandNode, nodeWordid]
  generalize config.getWord (Qpp.makeUpperLetter text) = looked
  obtain ⟨ret, word⟩ := looked
  simp only [notNatural, Bool.false_eq_true, false_and, if_false, searchNode,
    decide_eq_false notFake]
  by_cases registered : ret = Qpp.wordNotRegistered
  · subst registered
    rfl
  · rw [if_neg registered]
    split <;> rfl

theorem searchNode_postOrder (notNatural : pStObj.naturalSearch = false)
    (notFake : pStObj.searchField ≠ Qpp.fakeOpParam) {tree : Qpp.DaumTree} (plain : tree.Plain) :
    (tree.postOrder.map (Qpp.Item.node config pStObj)).map searchNode =
      (Query.ofTree (Qpp.operandField config pStObj) tree).nodes (nodeWordid config) := by
  induction tree with
  | word text =>
    exact congrArg (fun node => [node]) (searchNode_operandNode notNatural notFake _)
  | operator op left right ihLeft ihRight =>
    obtain ⟨isOperator, plainLeft, plainRight⟩ := plain
    rw [Qpp.DaumTree.postOrder, List.map_append, List.map_append, List.map_append,
      List.map_append, ihLeft plainLeft, ihRight plainRight]
    rcases isOperator with rfl | rfl <;> rfl

def indexedDocuments {size : Nat} (wordhitLen : Nat) (state : Rmac.State size Indexer.IndexWord) :
    List Document :=
  state.indexed.map fun document => ⟨document.1, wordhitLen, document.2⟩

def byteWords (document : List UInt8) : List Indexer.IndexWord :=
  document.map fun byte => ⟨[byte], 0, 1⟩

def firstByte (string : List UInt8) : Nat := (string.headD 0).toNat

/-- The words are registered under their first byte, and are searched in all fields. -/
def byteConfig : Qpp.Config where
  defaultSearchField := BitVec.allOnes 32
  defaultPhraseField := BitVec.allOnes 32
  fieldName := []
  getWord := fun string => (Qpp.success, ⟨string, (string.headD 0).toUInt32⟩)

def sampleStObj : Qpp.StateObj where
  postfixStack := []
  searchField := -1
  posWithinPhrase := false
  truncated := false
  virtualfield := 0
  naturalSearch := false

end Analyzed

end Wisebot.Qp
