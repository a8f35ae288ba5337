import Mathlib.Data.Int.Order.Basic
import Wisebot.Indexer.Documents
import Wisebot.Qp.Search

namespace Wisebot.Proximity

open Lib
open Indexer (StandardHit Build Fault maxStdPosition)
open Qp (IndexListType Ret maxResultDochitsPerDoc maxDochitsPerDocument)

/-! Index lists with the hits of their entries, and how `read_index_list` reads them
(`mod_qp/mod_qp2.c`). Numbers of fields are below 32, C leaves other shifts undefined. -/

structure DocHit where
  id : Nat
  field : BitVec 32
  hits : List StandardHit
  hitratio : BitVec 16
  nhits : Nat
  deriving DecidableEq

def DocHit.counted (dochit : DocHit) : List StandardHit := dochit.hits.take dochit.nhits

/-- One place of `doc_hits` and `relevance`. -/
structure Entry where
  dochit : DocHit
  relevance : BitVec 32
  deriving DecidableEq

structure IndexList where
  wordid : Nat
  field : BitVec 32
  listType : IndexListType
  isCompleteList : Bool
  entries : List Entry

inductive Posting where
  | failed
  | absent
  | entries (dochits : List DocHit)

structure Weight where
  weight : Int
  fieldId : Int

structure WeightList where
  reset : Bool
  resetValue : Int
  list : List Weight

/-- `log10` is `(int)log10(..)` of an `int`; `buffer k` is what the list that
`get_complete_list` gives for result `k` holds from earlier queries, its entries having
room for the hits. -/
structure Env where
  build : Build
  maxDocHitsSize : Nat
  posting : Nat → Posting
  weightList : WeightList
  lastIndexedDid : Nat
  log10 : Nat → Int
  buffer : Nat → Buffer Entry
  buffer_room : ∀ k index, (buffer k index).dochit.hits.length = build.stdHitsLen

def readFromDb (env : Env) (wordid : Nat) : Option (List DocHit) :=
  match env.posting wordid with
  | .failed => none
  | .absent => some []
  | .entries dochits => some (dochits.drop (dochits.length - env.maxDocHitsSize))

def inMask (field : BitVec 32) (hit : StandardHit) : Bool :=
  (1#32 <<< hit.field.toNat) &&& field ≠ 0

/-- The relevance of an entry of a list that had `ndochits` entries before the filter. -/
def readRelevance (env : Env) (ndochits : Nat) (field : BitVec 32) (dochit : DocHit) :
    BitVec 32 :=
  let wordHits := dochit.counted.filter (inMask field)
  let nWordHit := wordHits.length
  let weights := wordHits.flatMap fun hit =>
    env.weightList.list.filter fun weight => weight.fieldId = hit.field.toNat
  let weight := weights.foldl (fun sum weight => sum + BitVec.ofInt 32 weight.weight) 0#32
  if env.weightList.reset then BitVec.ofInt 32 env.weightList.resetValue + weight
  else
    BitVec.ofInt 32 ((env.log10 (env.lastIndexedDid * 3 / ndochits) + 1) * nWordHit) + weight

def readIndexList (env : Env) (list : IndexList) : Option IndexList :=
  if list.isCompleteList ∨ list.listType = .fakeOp ∨ list.listType = .notExistWord then
    some list
  else
    match readFromDb env list.wordid with
    | none => none
    | some dochits =>
      if list.field = BitVec.allOnes 32 then
        some { list with
          isCompleteList := true
          entries := dochits.map fun dochit => ⟨dochit, 0⟩ }
      else
        some { list with
          isCompleteList := true
          entries := (dochits.filter fun dochit => dochit.field &&& list.field ≠ 0).map
            fun dochit => ⟨dochit, readRelevance env dochits.length list.field dochit⟩ }

def firstDocument : List Entry → List Entry × List Entry
  | [] => ([], [])
  | entry :: entries =>
    (entry :: entries.takeWhile (fun other => other.dochit.id = entry.dochit.id),
      entries.dropWhile (fun other => other.dochit.id = entry.dochit.id))

end Wisebot.Proximity
