import Wisebot.Indexer.Packing

namespace Wisebot.Indexer

open Lib

/-! What the index database gets of a document is the document inverted: under
each word id the hits of the word, in the order of the document. -/

section Inversion

def Document.hitWords (document : Document) : List IndexWord :=
  (document.indexWords.filter fun indexWord => !indexWord.isNull).take document.wordhitLen

def Document.strings (document : Document) : Set (List UInt8) :=
  { string | ∃ indexWord ∈ document.hitWords, indexWord.string = string }

def Document.occurrences (document : Document) (string : List UInt8) : List IndexWord :=
  document.hitWords.filter fun indexWord => decide (indexWord.string = string)

/-- The field of an occurrence and its position, which stops at the greatest one. -/
def IndexWord.place (indexWord : IndexWord) : Nat × Nat :=
  (indexWord.field.toNat, min indexWord.pos.toNat maxStdPosition)

def StandardHit.place (hit : StandardHit) : Nat × Nat := (hit.field.toNat, hit.position)

variable (build : Build) (wordid : List UInt8 → Nat)

/-- One append for each word and no other, whose entries have the document's id,
a mask of the fields of their hits and together the places of the word. -/
structure Inverts (document : Document) (appends : List IndexdbAppend) : Prop where
  once : (appends.map IndexdbAppend.wordid).Nodup
  words : ∀ id, id ∈ appends.map IndexdbAppend.wordid ↔
    ∃ string ∈ document.strings, wordid string = id
  entries : ∀ append ∈ appends, ∀ dochit ∈ append.dochits,
    dochit.id = document.docid ∧ 1 ≤ dochit.nhits ∧ dochit.nhits ≤ build.stdHitsLen ∧
      ∀ field, dochit.field.getLsbD field = true ↔
        ∃ hit ∈ dochit.counted, hit.field.toNat = field
  hits : ∀ append ∈ appends, ∀ string ∈ document.strings, wordid string = append.wordid →
    (append.dochits.flatMap DocHit.counted).map StandardHit.place =
      ((document.occurrences string).map IndexWord.place).take (maxDochits * build.stdHitsLen)

/-- Each occurrence that is kept of a word is in a field that the mask has a bit for. -/
def FieldsFit (document : Document) : Prop :=
  ∀ string ∈ document.strings, ∀ indexWord ∈
    (document.occurrences string).take (maxDochits * build.stdHitsLen),
    indexWord.field.toNat < 32

variable {build wordid}

theorem Inverts.fieldsFit {document : Document} {appends : List IndexdbAppend}
    (inverts : Inverts build wordid document appends) : FieldsFit build document := by
  intro string isString indexWord kept
  obtain ⟨append, member, same⟩ := List.mem_map.mp
    ((inverts.words (wordid string)).mpr ⟨string, isString, rfl⟩)
  have placed : indexWord.place ∈ (append.dochits.flatMap DocHit.counted).map StandardHit.place := by
    rw [inverts.hits append member string isString same.symm, ← List.map_take]
    exact List.mem_map_of_mem kept
  obtain ⟨hit, isHit, place⟩ := List.mem_map.mp placed
  obtain ⟨dochit, isDochit, counted⟩ := List.mem_flatMap.mp isHit
  have fieldSame : hit.field.toNat = indexWord.field.toNat := congrArg Prod.fst place
  obtain ⟨-, -, -, mask⟩ := inverts.entries append member dochit isDochit
  exact BitVec.lt_of_getLsbD ((mask indexWord.field.toNat).mpr ⟨hit, counted, fieldSame⟩)

theorem getLsbD_foldl_or (overshift : UInt8 → BitVec 32) (hits : List StandardHit)
    (mask : BitVec 32) (field : Nat) :
    (hits.foldl (fun mask hit => mask ||| fieldBit overshift hit.field) mask).getLsbD field = true ↔
      mask.getLsbD field = true ∨
        ∃ hit ∈ hits, (fieldBit overshift hit.field).getLsbD field = true := by
  induction hits generalizing mask with
  | nil => simp
  | cons hit rest ih =>
    rw [List.foldl_cons, ih, BitVec.getLsbD_or, Bool.or_eq_true, or_assoc]
    simp

theorem getLsbD_fieldBit (overshift : UInt8 → BitVec 32) {nshift : UInt8}
    (small : nshift.toNat < 32) (field : Nat) :
    (fieldBit overshift nshift).getLsbD field = true ↔ nshift.toNat = field := by
  rw [fieldBit, if_pos small, BitVec.getLsbD_shiftLeft]
  simp only [BitVec.getLsbD_one, Bool.and_eq_true, Bool.not_eq_true', decide_eq_true_eq,
    decide_eq_false_iff_not]
  omega

def wordHitOf (wordid : List UInt8 → Nat) (indexWord : IndexWord) : WordHit :=
  ⟨wordid indexWord.string, stdHit indexWord⟩

theorem indexEachDoc_eq {getNewWordid : List UInt8 → Option Nat}
    (numbered : ∀ string, getNewWordid string = some (wordid string)) (wordhitSize : Nat)
    (indexWords : List IndexWord) (idx : Nat) :
    indexEachDoc getNewWordid wordhitSize indexWords idx =
      ((indexWords.filter fun indexWord => !indexWord.isNull).take (wordhitSize - idx)).map
        (wordHitOf wordid) := by
  induction indexWords generalizing idx with
  | nil => simp [indexEachDoc]
  | cons indexWord rest ih =>
    rw [indexEachDoc]
    split
    next full => rw [Nat.sub_eq_zero_of_le full, List.take_zero, List.map_nil]
    next room =>
      cases null : indexWord.isNull with
      | true =>
        rw [if_pos rfl, ih, List.filter_cons_of_neg (by simp [null])]
      | false =>
        rw [if_neg (by simp), List.filter_cons_of_pos (by simp [null]), numbered]
        rw [show wordhitSize - idx = (wordhitSize - (idx + 1)) + 1 by omega,
          List.take_succ_cons, List.map_cons, ← ih]
        rfl

theorem place_stdHit {indexWord : IndexWord} (small : indexWord.field.toNat < 32) :
    (stdHit indexWord).place = indexWord.place := by
  rw [StandardHit.place, IndexWord.place, stdHit, UInt16.toNat_toUInt8,
    Nat.mod_eq_of_lt (by omega), Prod.mk.injEq]
  refine ⟨rfl, ?_⟩
  simp only
  split <;> omega

theorem filter_wordHitOf {document : Document} (distinct : Set.InjOn wordid document.strings)
    {string : List UInt8} (isString : string ∈ document.strings) :
    ((document.hitWords.map (wordHitOf wordid)).filter fun wordhit =>
        decide (wordhit.wordid = wordid string)) =
      (document.occurrences string).map (wordHitOf wordid) := by
  rw [List.filter_map, Document.occurrences]
  refine congrArg _ (List.filter_congr ?_)
  intro indexWord member
  exact decide_eq_decide.mpr (distinct.eq_iff ⟨indexWord, member, rfl⟩ isString)

theorem Grouped.inverts {overshift : UInt8 → BitVec 32} {document : Document}
    {appends : List IndexdbAppend} (distinct : Set.InjOn wordid document.strings)
    (grouped : Grouped build overshift document.docid
      (Runs.sortByKey WordHit.wordid (document.hitWords.map (wordHitOf wordid))) appends)
    (fit : FieldsFit build document) : Inverts build wordid document appends := by
  have words : ∀ id, id ∈ appends.map IndexdbAppend.wordid ↔
      ∃ string ∈ document.strings, wordid string = id := by
    intro id
    rw [grouped.present]
    simp only [Runs.mem_sortByKey, List.mem_map, Document.strings, Set.mem_ofPred_eq]
    constructor
    · rintro ⟨_, ⟨indexWord, member, rfl⟩, same⟩
      exact ⟨indexWord.string, ⟨indexWord, member, rfl⟩, same⟩
    · rintro ⟨_, ⟨indexWord, member, rfl⟩, same⟩
      exact ⟨wordHitOf wordid indexWord, ⟨indexWord, member, rfl⟩, same⟩
  have packed : ∀ append ∈ appends, ∀ string ∈ document.strings, wordid string = append.wordid →
      Packed build overshift document.docid
        (((document.occurrences string).take (maxDochits * build.stdHitsLen)).map stdHit)
        append.dochits := by
    intro append member string isString same
    have packs := grouped.packed append member
    rw [Runs.filter_sortByKey, ← same, filter_wordHitOf distinct isString, List.map_map,
      ← List.map_take] at packs
    exact packs
  refine ⟨grouped.increasing.imp (by intro first second below; exact below.ne), words, ?_, ?_⟩
  · intro append member dochit isDochit
    obtain ⟨string, isString, same⟩ :=
      (words append.wordid).mp (List.mem_map_of_mem member)
    have packs := packed append member string isString same
    have entry := packs.entries dochit isDochit
    refine ⟨entry.id, entry.positive, entry.bounded, ?_⟩
    intro field
    rw [entry.field, fieldMask, getLsbD_foldl_or]
    simp only [BitVec.ofNat_eq_ofNat, BitVec.getLsbD_zero, Bool.false_eq_true, false_or]
    refine exists_congr fun hit => and_congr_right fun counted => ?_
    have isHit : hit ∈ append.dochits.flatMap DocHit.counted :=
      List.mem_flatMap.mpr ⟨dochit, isDochit, counted⟩
    rw [packs.counted] at isHit
    obtain ⟨indexWord, kept, rfl⟩ := List.mem_map.mp isHit
    refine getLsbD_fieldBit overshift ?_ field
    have small := fit string isString indexWord kept
    rw [stdHit, UInt16.toNat_toUInt8]
    omega
  · intro append member string isString same
    rw [(packed append member string isString same).counted, List.map_map, ← List.map_take]
    refine List.map_congr_left ?_
    intro indexWord kept
    exact place_stdHit (fit string isString indexWord kept)

theorem saveToIndexdb_spec {overshift : UInt8 → BitVec 32} {indexdbAppend : IndexdbAppend → Bool}
    {getNewWordid : List UInt8 → Option Nat}
    (appendsSucceed : ∀ append, indexdbAppend append = true)
    (numbered : ∀ string, getNewWordid string = some (wordid string)) (document : Document)
    (distinct : Set.InjOn wordid document.strings) {dochits : List DocHit}
    (sized : Sized build dochits) :
    ∃ saved, saveToIndexdb build overshift indexdbAppend getNewWordid document dochits =
        .ok saved ∧ saved.success = true ∧ Sized build saved.dochits ∧
      (Inverts build wordid document saved.appends ↔ FieldsFit build document) := by
  have wordhits := indexEachDoc_eq numbered document.wordhitLen document.indexWords 0
  obtain ⟨saved, saves, success, savedSized, grouped⟩ :=
    saveRuns_spec document.docid appendsSucceed
      (indexEachDoc getNewWordid document.wordhitLen document.indexWords 0).length
      (Runs.sortByKey WordHit.wordid
        (indexEachDoc getNewWordid document.wordhitLen document.indexWords 0))
      dochits (by rw [Runs.length_sortByKey]) (Runs.ordered_sortByKey _) sized
  refine ⟨saved, saves, success, savedSized, Inverts.fieldsFit, ?_⟩
  rw [wordhits, Nat.sub_zero] at grouped
  exact Grouped.inverts distinct grouped

variable (build wordid) in
theorem saveDocuments_spec (overshift : UInt8 → BitVec 32)
    (indexdbAppend : IndexdbAppend → Bool) (getNewWordid : List UInt8 → Option Nat)
    (appendsSucceed : ∀ append, indexdbAppend append = true)
    (numbered : ∀ string, getNewWordid string = some (wordid string))
    (documents : List Document)
    (distinct : ∀ document ∈ documents, Set.InjOn wordid document.strings)
    (dochits : List DocHit) (sized : Sized build dochits) :
    ∃ results, saveDocuments build overshift indexdbAppend getNewWordid documents dochits =
        .ok results ∧
      List.Forall₂ (fun document saved => saved.success = true ∧
        (Inverts build wordid document saved.appends ↔ FieldsFit build document))
        documents results := by
  induction documents generalizing dochits with
  | nil => exact ⟨[], rfl, List.Forall₂.nil⟩
  | cons document rest ih =>
    obtain ⟨saved, saves, success, savedSized, inverts⟩ :=
      saveToIndexdb_spec appendsSucceed numbered document
        (distinct document List.mem_cons_self) sized
    obtain ⟨results, later, all⟩ :=
      ih (fun other member => distinct other (List.mem_cons_of_mem document member))
        saved.dochits savedSized
    refine ⟨saved :: results, ?_, List.Forall₂.cons ⟨success, inverts⟩ all⟩
    rw [saveDocuments, saves]
    simp only [bind, Except.bind, later]

variable (build wordid) in
/-- Whatever documents come, one after another, no assertion fails and no write
leaves the buffer; and a document is inverted exactly if its fields fit. -/
theorem saveDocuments_inverts_iff (overshift : UInt8 → BitVec 32)
    (indexdbAppend : IndexdbAppend → Bool) (getNewWordid : List UInt8 → Option Nat)
    (appendsSucceed : ∀ append, indexdbAppend append = true)
    (numbered : ∀ string, getNewWordid string = some (wordid string))
    (documents : List Document)
    (distinct : ∀ document ∈ documents, Set.InjOn wordid document.strings) :
    ∃ results, saveDocuments build overshift indexdbAppend getNewWordid documents [] =
        .ok results ∧
      List.Forall₂ (fun document saved => saved.success = true ∧
        (Inverts build wordid document saved.appends ↔ FieldsFit build document))
        documents results :=
  saveDocuments_spec build wordid overshift indexdbAppend getNewWordid appendsSucceed numbered
    documents distinct [] (by simp [Sized])

/-- The default of `configure`. -/
def defaultBuild : Build := ⟨4, by decide, by decide⟩

/-- A shift on x86 uses the low five bits of the count. -/
def x86Overshift (nshift : UInt8) : BitVec 32 := 1#32 <<< (nshift.toNat % 32)

def twoWords : Document where
  docid := 7
  wordhitLen := 10
  indexWords := [⟨[97], 0, 1⟩, ⟨[98, 98], 1, 1⟩, ⟨[97], 2, 3⟩]

theorem twoWords_distinct : ∀ document ∈ [twoWords, twoWords],
    Set.InjOn List.length document.strings := by
  have strings : ∀ string ∈ twoWords.strings, string = [97] ∨ string = [98, 98] := by
    rintro string ⟨indexWord, member, rfl⟩
    have listed : twoWords.hitWords = twoWords.indexWords := rfl
    rw [listed] at member
    simp only [twoWords, List.mem_cons, List.not_mem_nil, or_false] at member
    rcases member with rfl | rfl | rfl
    · exact Or.inl rfl
    · exact Or.inr rfl
    · exact Or.inl rfl
  intro document member
  simp only [List.mem_cons, List.not_mem_nil, or_false, or_self] at member
  subst member
  intro first isFirst second isSecond same
  rcases strings first isFirst with rfl | rfl <;> rcases strings second isSecond with rfl | rfl <;>
    simp_all

theorem saveDocuments_inverts_iff_two_words :
    ∃ results, saveDocuments defaultBuild x86Overshift (fun _ => true)
        (fun string => some string.length) [twoWords, twoWords] [] = .ok results ∧
      List.Forall₂ (fun document saved => saved.success = true ∧
        (Inverts defaultBuild List.length document saved.appends ↔
          FieldsFit defaultBuild document)) [twoWords, twoWords] results :=
  saveDocuments_inverts_iff defaultBuild List.length x86Overshift (fun _ => true)
    (fun string => some string.length) (by simp) (by simp) [twoWords, twoWords]
    twoWords_distinct

/-- A document with one word in field 40, which the configuration may index. -/
def fieldForty : Document where
  docid := 7
  wordhitLen := 10
  indexWords := [⟨[97], 0, 40⟩]

theorem fieldForty_not_inverted :
    ∃ results, saveDocuments defaultBuild x86Overshift (fun _ => true)
        (fun string => some string.length) [fieldForty] [] = .ok results ∧
      ¬ List.Forall₂ (fun document saved => Inverts defaultBuild List.length document saved.appends)
        [fieldForty] results := by
  have distinct : ∀ document ∈ [fieldForty], Set.InjOn List.length document.strings := by
    intro document member
    rw [List.mem_singleton] at member
    subst member
    rintro first ⟨one, isOne, rfl⟩ second ⟨two, isTwo, rfl⟩ _
    have listed : fieldForty.hitWords = [⟨[97], 0, 40⟩] := rfl
    rw [listed, List.mem_singleton] at isOne isTwo
    rw [isOne, isTwo]
  obtain ⟨results, saves, inverts⟩ := saveDocuments_spec defaultBuild List.length
    x86Overshift (fun _ => true) (fun string => some string.length) (by simp) (by simp)
    [fieldForty] distinct [] (by simp [Sized])
  refine ⟨results, saves, ?_⟩
  intro all
  cases all with
  | cons inverted _ =>
    have fit := inverted.fieldsFit [97] ⟨⟨[97], 0, 40⟩, by decide, by decide⟩ ⟨[97], 0, 40⟩
      (by decide)
    exact absurd fit (by decide)

end Inversion

end Wisebot.Indexer
