import Wisebot.Proximity.Lists

namespace Wisebot.Proximity

open Lib
open Indexer (StandardHit Build Fault maxStdPosition)
open Qp (IndexListType Ret maxResultDochitsPerDoc maxDochitsPerDocument)

/-! `operate_within` and `operate_phrase`. An error is a failed assertion or an access
outside an array. -/

def int32Max : Nat := 2147483647

def uint32Max : Nat := 4294967295

def placed (field : BitVec 32) (hit : StandardHit) : Bool :=
  inMask field hit && hit.position ≠ maxStdPosition

/-- The body of the inner loop of `get_shortest_dist_with_a_dochit`. -/
def shortestDist (field : BitVec 32) (hit1 : StandardHit) (best : Int × Nat)
    (hit2 : StandardHit) : Int × Nat :=
  if placed field hit2 ∧ hit1.field = hit2.field then
    let tmp : Int := hit2.position - hit1.position
    if tmp.natAbs < best.2 then (tmp, tmp.natAbs) else best
  else best

def getShortestDistWithADochit (field : BitVec 32) (dochit1 dochit2 : DocHit) : Int :=
  (dochit1.counted.foldl (fun best hit1 =>
    if placed field hit1 then dochit2.counted.foldl (shortestDist field hit1) best else best)
    ((int32Max : Int), uint32Max)).1

/-- The body of the inner loop of `get_ordered_shortest_dist_with_a_dochit`. -/
def orderedShortestDist (field : BitVec 32) (hit1 : StandardHit) (best : Nat)
    (hit2 : StandardHit) : Nat :=
  if placed field hit2 ∧ hit1.field = hit2.field then
    let tmp : Int := hit2.position - hit1.position
    if tmp < 0 then best else if tmp < best then tmp.toNat else best
  else best

def getOrderedShortestDistWithADochit (field : BitVec 32) (dochit1 dochit2 : DocHit) : Nat :=
  dochit1.counted.foldl (fun best hit1 =>
    if placed field hit1 then dochit2.counted.foldl (orderedShortestDist field hit1) best
    else best) int32Max

def getAbsShortestDist (field : BitVec 32) (dochits1 dochits2 : List DocHit) : Nat :=
  dochits1.foldl (fun best dochit1 =>
    dochits2.foldl (fun best dochit2 =>
      let absTmp := (getShortestDistWithADochit field dochit1 dochit2).natAbs
      if absTmp < best then absTmp else best) best) uint32Max

def getOrderedShortestDist (field : BitVec 32) (dochits1 dochits2 : List DocHit) : Nat :=
  dochits1.foldl (fun best dochit1 =>
    dochits2.foldl (fun best dochit2 =>
      let tmp := getOrderedShortestDistWithADochit field dochit1 dochit2
      if tmp < best then tmp else best) best) int32Max

def isWithinDist (hit1 hit2 : StandardHit) (givenDist : Nat) : Bool :=
  if hit1.field ≠ hit2.field then false
  else
    let dist : Int := hit2.position - hit1.position
    if hit1.position = maxStdPosition ∨ hit2.position = maxStdPosition then false
    else if givenDist < dist.natAbs then false
    else true

def isWithinOrderedDist (hit1 hit2 : StandardHit) (givenDist : Nat) : Bool :=
  if hit1.field ≠ hit2.field then false
  else
    let dist : Int := hit2.position - hit1.position
    if dist < 0 then false
    else if hit1.position = maxStdPosition ∨ hit2.position = maxStdPosition then false
    else if givenDist < dist then false
    else true

/-- `index_document_t` of an operand. -/
structure IndexDocument where
  dochits : List Entry
  dochitIdx : Nat
  hitIdx : Nat

def setIdxToFirstHit (doc : IndexDocument) : IndexDocument :=
  { doc with dochitIdx := 0, hitIdx := 0 }

def initIndexDocument (entries : List Entry) : Except Fault IndexDocument :=
  if maxDochitsPerDocument < entries.length then .error .outsideBuffer
  else .ok { dochits := entries, dochitIdx := 0, hitIdx := 0 }

/-- `none` is the `NULL` behind the last hit. -/
def getNextHit (doc : IndexDocument) : Except Fault (Option StandardHit × IndexDocument) :=
  match doc.dochits[doc.dochitIdx]? with
  | none => .error .assertion
  | some current =>
    let doc :=
      if current.dochit.nhits ≤ doc.hitIdx then
        { doc with dochitIdx := doc.dochitIdx + 1, hitIdx := 0 }
      else doc
    match doc.dochits[doc.dochitIdx]? with
    | none => .ok (none, doc)
    | some entry =>
      match entry.dochit.hits[doc.hitIdx]? with
      | none => .error .outsideBuffer
      | some hit => .ok (some hit, { doc with hitIdx := doc.hitIdx + 1 })

def currentRelevance (doc : IndexDocument) : BitVec 32 :=
  (doc.dochits[doc.dochitIdx]?.map Entry.relevance).getD 0

structure Filling where
  dochits : List Entry
  dochitIdx : Nat
  hitIdx : Nat

/-- `init_result_document`: the entries are cleared except for ids and hits. -/
def initResultDocument (buffer : Buffer Entry) (start nelm : Nat) : Filling where
  dochits := (List.range nelm).map fun index =>
    let old := buffer (start + index)
    ⟨{ old.dochit with nhits := 0, field := 0 }, 0⟩
  dochitIdx := 0
  hitIdx := 0

def addHit (docid : Nat) (mask : StandardHit) (kept : StandardHit) (relevance : BitVec 32)
    (result : Filling) : Except Fault Filling :=
  match result.dochits[result.dochitIdx]? with
  | none => .error .outsideBuffer
  | some entry =>
    if entry.dochit.hits.length ≤ result.hitIdx then .error .outsideBuffer
    else
      let dochit := { entry.dochit with
        id := docid
        field := entry.dochit.field ||| (1#32 <<< mask.field.toNat)
        nhits := entry.dochit.nhits + 1
        hits := entry.dochit.hits.set result.hitIdx kept }
      .ok { result with
        dochits := result.dochits.set result.dochitIdx ⟨dochit, entry.relevance + relevance⟩
        hitIdx := result.hitIdx + 1 }

/-- `if (hit_idx >= STD_HITS_LEN)`: the next entry begins. -/
def nextEntry (build : Build) (result : Filling) : Filling :=
  if build.stdHitsLen ≤ result.hitIdx then
    { result with dochitIdx := result.dochitIdx + 1, hitIdx := 0 }
  else result

/-- What `operate_within` and `operate_phrase` differ in. -/
structure Operation where
  shortest : BitVec 32 → List DocHit → List DocHit → Nat
  isClose : StandardHit → StandardHit → Nat → Bool
  kept : StandardHit → StandardHit → StandardHit

def withinOperation : Operation where
  shortest := getAbsShortestDist
  isClose := isWithinDist
  kept _ hit2 := hit2

def phraseOperation : Operation where
  shortest := getOrderedShortestDist
  isClose := isWithinOrderedDist
  kept hit1 _ := hit1

section Document

variable (build : Build) (operation : Operation) (dist docid : Nat)

def addPair (hit1 hit2 : StandardHit) (relevance : BitVec 32) (result : Filling) :
    Except Fault Filling :=
  if operation.isClose hit1 hit2 dist then
    addHit docid hit2 (operation.kept hit1 hit2) relevance result
  else .ok result

/-- The loop over the hits of the first document; the flag tells whether the result is
full. -/
def innerLoop (hit2 : StandardHit) (relevance2 : BitVec 32) :
    (fuel : Nat) → IndexDocument → Filling → Except Fault (Filling × Bool)
  | 0, _, _ => .error .outOfSteps
  | fuel + 1, doc1, result => do
      let (next, doc1) ← getNextHit doc1
      match next with
      | none => .ok (result, false)
      | some hit1 =>
        let result ← addPair operation dist docid hit1 hit2
          (relevance2 + currentRelevance doc1) result
        let result := nextEntry build result
        if result.dochits.length ≤ result.dochitIdx then .ok (result, true)
        else innerLoop hit2 relevance2 fuel doc1 result

/-- As many turns as a loop over the hits of a document takes. -/
def turns (doc : IndexDocument) : Nat :=
  (doc.dochits.map fun entry => entry.dochit.nhits).sum + 1

/-- The loop over the hits of the second document, and the entries it leaves. -/
def outerLoop (doc1 : IndexDocument) :
    (fuel : Nat) → IndexDocument → Filling → Except Fault (List Entry)
  | 0, _, _ => .error .outOfSteps
  | fuel + 1, doc2, result => do
      let (next, doc2) ← getNextHit doc2
      match next with
      | none =>
        .ok (result.dochits.take
          (if result.hitIdx ≠ 0 then result.dochitIdx + 1 else result.dochitIdx))
      | some hit2 =>
        let (result, full) ← innerLoop build operation dist docid hit2 (currentRelevance doc2)
          (turns doc1) (setIdxToFirstHit doc1) result
        if full then .ok (result.dochits.take result.dochitIdx)
        else outerLoop doc1 fuel doc2 result

def operateEachDocument (doc1 doc2 : IndexDocument) (result : Filling) :
    Except Fault (List Entry) :=
  outerLoop build operation dist docid doc1 (turns doc2) (setIdxToFirstHit doc2) result

end Document

def operateWithinEachDocument (build : Build) (doc1 doc2 : IndexDocument) (result : Filling)
    (docid dist : Nat) : Except Fault (List Entry) :=
  operateEachDocument build withinOperation dist docid doc1 doc2 result

def operatePhraseEachDocument (build : Build) (doc1 doc2 : IndexDocument) (result : Filling)
    (docid dist : Nat) : Except Fault (List Entry) :=
  operateEachDocument build phraseOperation dist docid doc1 doc2 result

section Lists

variable (env : Env) (operation : Operation) (dist : Nat) (field : BitVec 32)
  (buffer : Buffer Entry)

/-- The entries that a document of both lists adds behind `idx3` others; `none` if its
words are too far apart. -/
def documentEntries (doc1 doc2 : List Entry) (docid idx3 : Nat) :
    Except Fault (Option (List Entry)) :=
  if dist < operation.shortest field (doc1.map Entry.dochit) (doc2.map Entry.dochit) then
    .ok none
  else do
    let maxDochits := min maxResultDochitsPerDoc (env.maxDocHitsSize - idx3)
    let doc1 ← initIndexDocument doc1
    let doc2 ← initIndexDocument doc2
    let dochits3 ← operateEachDocument env.build operation dist docid doc1 doc2
      (initResultDocument buffer idx3 maxDochits)
    if dochits3.length = 0 then .error .assertion else .ok (some dochits3)

/-- The check at the end of a turn, and the turns behind it. -/
def checkSize (result : List Entry) (further : Except Fault (List Entry)) :
    Except Fault (List Entry) :=
  if env.maxDocHitsSize ≤ result.length then
    if result.length = env.maxDocHitsSize then .ok result else .error .assertion
  else further

/-- The loop of `operate_within_each_list` and `operate_phrase_each_list`; `result` holds
the first `idx3` entries. -/
def eachListFrom :
    (fuel : Nat) → (l1 l2 result : List Entry) → Except Fault (List Entry)
  | 0, _, _, _ => .error .outOfSteps
  | fuel + 1, entry1 :: l1, entry2 :: l2, result =>
    let doc1 := firstDocument (entry1 :: l1)
    let doc2 := firstDocument (entry2 :: l2)
    if entry1.dochit.id < entry2.dochit.id then
      checkSize env result (eachListFrom fuel doc1.2 (entry2 :: l2) result)
    else if entry2.dochit.id < entry1.dochit.id then
      checkSize env result (eachListFrom fuel (entry1 :: l1) doc2.2 result)
    else do
      match ← documentEntries env operation dist field buffer doc1.1 doc2.1 entry1.dochit.id
        result.length with
      | none => eachListFrom fuel doc1.2 doc2.2 result
      | some dochits3 =>
        checkSize env (result ++ dochits3)
          (eachListFrom fuel doc1.2 doc2.2 (result ++ dochits3))
  | _ + 1, _, _, result => .ok result

end Lists

def operateEachList (env : Env) (operation : Operation) (dist : Nat) (buffer : Buffer Entry)
    (l1 l2 : IndexList) : Except Fault IndexList := do
  let field := l1.field &&& l2.field
  let entries ← eachListFrom env operation dist field buffer
    (l1.entries.length + l2.entries.length + 1) l1.entries l2.entries []
  .ok {
    wordid := 0
    field := field
    listType := .normal
    isCompleteList := true
    entries := entries }

def operateWithinEachList (env : Env) (buffer : Buffer Entry) (l1 l2 : IndexList) (dist : Nat) :
    Except Fault IndexList :=
  operateEachList env withinOperation dist buffer l1 l2

def operatePhraseEachList (env : Env) (buffer : Buffer Entry) (l1 l2 : IndexList) (dist : Nat) :
    Except Fault IndexList :=
  operateEachList env phraseOperation dist buffer l1 l2

/-- The stack, its top first, and the number of results made so far. -/
structure Search where
  stack : List IndexList
  results : Nat

def combine (env : Env) (operation : Operation) (dist results : Nat) (l1 l2 : IndexList) :
    Except Fault (IndexList × Nat) :=
  if l1.listType = .fakeOp then .ok (l2, results)
  else if l2.listType = .fakeOp then .ok (l1, results)
  else do
    let list ← operateEachList env operation dist (env.buffer results) l1 l2
    .ok (list, results + 1)

/-- The loop of `operate_within` and `operate_phrase`. -/
def combineOperands (env : Env) (operation : Operation) (dist : Nat) :
    (numOfOperands : Nat) → Search → Except Fault (Ret × Search)
  | numOfOperands + 2, search =>
    match search.stack with
    | l2 :: l1 :: rest =>
      match readIndexList env l2, readIndexList env l1 with
      | some l2, some l1 => do
          let (list, results) ← combine env operation dist search.results l1 l2
          combineOperands env operation dist (numOfOperands + 1)
            { stack := list :: rest, results := results }
      | _, _ => .ok (.fail, { search with stack := rest })
    | _ => .ok (.fail, { search with stack := [] })
  | _, search => .ok (.success, search)

def operateWithin (env : Env) (numOfOperands : Nat) (opParam : Int) (search : Search) :
    Except Fault (Ret × Search) :=
  let neededDist := (opParam % 65536).toNat
  if opParam < 0 then .error .assertion
  else combineOperands env withinOperation neededDist numOfOperands search

def phraseDistance : Nat := 1

def operatePhrase (env : Env) (numOfOperands : Nat) (search : Search) :
    Except Fault (Ret × Search) :=
  combineOperands env phraseOperation phraseDistance numOfOperands search

end Wisebot.Proximity
