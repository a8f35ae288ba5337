import Mathlib.Algebra.Ring.Nat
import Mathlib.Data.List.Basic
import Wisebot.Lib.Runs

namespace Wisebot.Indexer

open Lib

/-! Indexing of a document: its index words get their word ids, the hits are
sorted by word id and each run of one word is packed into `doc_hit_t` entries
of a buffer that is kept between documents and appended to the index database. -/

def maxWordLen : Nat := 40

def maxStdPosition : Nat := 16777215

def maxDochits : Nat := 100

/-- What the build fixes: the hits of one `doc_hit_t`, which are counted in 16 bits. -/
structure Build where
  stdHitsLen : Nat
  stdHitsLen_pos : 0 < stdHitsLen
  stdHitsLen_lt : stdHitsLen < 65536

/-- The parts of `index_word_t` that the indexer reads. -/
structure IndexWord where
  word : List UInt8
  pos : UInt32
  field : UInt16
deriving DecidableEq, Repr

structure StandardHit where
  field : UInt8
  position : Nat
deriving DecidableEq, Repr

structure WordHit where
  wordid : Nat
  hit : StandardHit
deriving DecidableEq, Repr

structure DocHit where
  id : Nat
  field : BitVec 32
  hits : List StandardHit
  nhits : Nat
deriving DecidableEq, Repr

def DocHit.counted (dochit : DocHit) : List StandardHit := dochit.hits.take dochit.nhits

/-- One call of `indexdb_append`. -/
structure IndexdbAppend where
  wordid : Nat
  dochits : List DocHit
deriving DecidableEq, Repr

/-- How a call can go wrong other than by returning an error. -/
inductive Fault where
  | assertion
  | outsideBuffer
  | outOfSteps
deriving DecidableEq, Repr

/-- The string that the lexicon is asked for: the bytes before the terminator,
which `index_each_doc` writes at the end of the copy in any case. -/
def IndexWord.string (indexWord : IndexWord) : List UInt8 :=
  (indexWord.word.takeWhile fun byte => decide (byte ≠ 0)).take (maxWordLen - 1)

def IndexWord.isNull (indexWord : IndexWord) : Bool := indexWord.word.headD 0 = 0

def stdHit (indexWord : IndexWord) : StandardHit where
  field := indexWord.field.toUInt8
  position :=
    if indexWord.pos.toNat < maxStdPosition then indexWord.pos.toNat else maxStdPosition

/-- The filled part of `wordhit`, from place `idx` on. A hit that is written for
a skipped word is overwritten by the next one. -/
def indexEachDoc (getNewWordid : List UInt8 → Option Nat) (wordhitSize : Nat) :
    List IndexWord → (idx : Nat) → List WordHit
  | [], _ => []
  | indexWord :: rest, idx =>
    if wordhitSize ≤ idx then []
    else if indexWord.isNull then indexEachDoc getNewWordid wordhitSize rest idx
    else
      match getNewWordid indexWord.string with
      | none => indexEachDoc getNewWordid wordhitSize rest idx
      | some wordid =>
        ⟨wordid, stdHit indexWord⟩ :: indexEachDoc getNewWordid wordhitSize rest (idx + 1)

section Packing

variable (build : Build) (overshift : UInt8 → BitVec 32)

/-- `1 << nshift` in 32 bits. C leaves a shift by 32 or more undefined; what the
compiled code gives then is `overshift`. -/
def fieldBit (nshift : UInt8) : BitVec 32 :=
  if nshift.toNat < 32 then 1#32 <<< nshift.toNat else overshift nshift

/-- The inner loop of `fill_dochit` from the hit `i` on. -/
def fillHits : List WordHit → (i : Nat) → DocHit → Except Fault DocHit
  | [], _, dochit => .ok dochit
  | wordhit :: rest, i, dochit =>
    if i < dochit.hits.length then
      fillHits rest (i + 1)
        { dochit with
          field := dochit.field ||| fieldBit overshift wordhit.hit.field
          hits := dochit.hits.set i wordhit.hit }
    else .error .outsideBuffer

/-- The outer loop of `fill_dochit` from the entry `dochitIdx` on, with `room`
entries left of `max_dochits`. -/
def fillDochitFrom (docid : Nat) :
    (room : Nat) → (dochitIdx : Nat) → List WordHit → List DocHit →
      Except Fault (Nat × List DocHit)
  | 0, dochitIdx, _, dochits => .ok (dochitIdx, dochits)
  | room + 1, dochitIdx, wordhits, dochits =>
    if wordhits = [] then .ok (dochitIdx, dochits)
    else
      match dochits[dochitIdx]? with
      | none => .error .outsideBuffer
      | some old => do
          let nhits :=
            (if wordhits.length > build.stdHitsLen then build.stdHitsLen else wordhits.length)
              % 65536
          let filled ← fillHits overshift (wordhits.take nhits) 0
            { old with id := docid, nhits := nhits, field := 0 }
          fillDochitFrom docid room (dochitIdx + 1) (wordhits.drop nhits)
            (dochits.set dochitIdx filled)

def fillDochit (dochits : List DocHit) (maxDochits docid : Nat) (wordhits : List WordHit) :
    Except Fault (Nat × List DocHit) :=
  fillDochitFrom build overshift docid maxDochits 0 wordhits dochits

end Packing

/-- `count_successive_wordid_same_to_first_in_wordhit` behind the first hit. -/
def countSuccessive (firstWordid : Nat) : List WordHit → (count : Nat) → Nat
  | [], count => count
  | wordhit :: rest, count =>
    if wordhit.wordid ≠ firstWordid then count
    else countSuccessive firstWordid rest (count + 1)

/-- The memory that `sb_malloc` gives; nothing of it is read before it is written. -/
def mallocDochits (build : Build) (count : Nat) : List DocHit :=
  List.replicate count ⟨0, 0, List.replicate build.stdHitsLen ⟨0, 0⟩, 0⟩

/-- What a call leaves: its answer, the buffer and the appends it made. -/
structure Saved where
  success : Bool
  dochits : List DocHit
  appends : List IndexdbAppend

section Saving

variable (build : Build) (overshift : UInt8 → BitVec 32)
  (indexdbAppend : IndexdbAppend → Bool)

/-- The loop of `save_to_indexdb` over the sorted hits. -/
def saveRuns (docid : Nat) :
    (fuel : Nat) → List WordHit → List DocHit → Except Fault Saved
  | _, [], dochits => .ok ⟨true, dochits, []⟩
  | 0, _ :: _, _ => .error .outOfSteps
  | fuel + 1, first :: rest, dochits => do
      let sameCount := countSuccessive first.wordid rest 1
      let buffer :=
        if dochits.length = 0 ∨ dochits.length ≤ sameCount then mallocDochits build sameCount
        else dochits
      let (dochitsCount, filled) ← fillDochit build overshift buffer maxDochits docid
        ((first :: rest).take sameCount)
      if 1 ≤ dochitsCount ∧ dochitsCount ≤ filled.length then
        let append : IndexdbAppend := ⟨first.wordid, filled.take dochitsCount⟩
        if indexdbAppend append then do
          let saved ← saveRuns docid fuel ((first :: rest).drop sameCount) filled
          .ok { saved with appends := append :: saved.appends }
        else .ok ⟨false, filled, []⟩
      else .error .assertion

/-- A document as `save_to_indexdb` gets it. -/
structure Document where
  docid : Nat
  wordhitLen : Nat
  indexWords : List IndexWord

variable (getNewWordid : List UInt8 → Option Nat)

def saveToIndexdb (document : Document) (dochits : List DocHit) : Except Fault Saved :=
  let wordhits := indexEachDoc getNewWordid document.wordhitLen document.indexWords 0
  saveRuns build overshift indexdbAppend document.docid wordhits.length
    (Runs.sortByKey WordHit.wordid wordhits) dochits

/-- The documents one after another; the buffer of each call is the one that the
call before it left. -/
def saveDocuments : List Document → List DocHit → Except Fault (List Saved)
  | [], _ => .ok []
  | document :: rest, dochits => do
      let saved ← saveToIndexdb build overshift indexdbAppend getNewWordid document dochits
      let later ← saveDocuments rest saved.dochits
      .ok (saved :: later)

end Saving

end Wisebot.Indexer
