import Wisebot.Lib.Buffer

namespace Wisebot.Qp

open Wisebot.Lib

/-! Boolean searches (`mod_qp/mod_qp2.c`): index lists on a stack, merged by the
operators of a postfix query. Hits, hit ratios and relevances do not decide
which entries a list has and are left out, and so are `operate_within` and
`operate_phrase`. A `none` result is an access outside an array, or one of these
two operators. -/

def maxResultDochitsPerDoc : Nat := 5

def maxDochitsPerDocument : Nat := 512

structure DocHit where
  id : Nat
  field : BitVec 32
  deriving DecidableEq

abbrev Hits := Buffer DocHit

inductive Ret where
  | success
  | fail
  deriving DecidableEq

inductive IndexListType where
  | exclude
  | fakeOp
  | notExistWord
  | normal
  deriving DecidableEq

/-- An incomplete list has no buffer; `pooled` tells whether the buffer of a
complete one belongs to the pool or was allocated. -/
structure IndexList where
  wordid : Nat
  field : BitVec 32
  listType : IndexListType
  ndochits : Nat
  docHits : Option Hits
  pooled : Bool

def IndexList.hits (list : IndexList) : List DocHit :=
  match list.docHits with
  | some docHits => docHits.take list.ndochits
  | none => []

inductive Posting where
  | failed
  | absent
  | entries (hits : List DocHit)

structure Env where
  maxDocHitsSize : Nat
  posting : Nat → Posting

def getCompleteList : List Hits → (Hits × Bool) × List Hits
  | [] => ((fun _ => ⟨0, 0⟩, false), [])
  | docHits :: pool => ((docHits, true), pool)

def releaseList (list : IndexList) (pool : List Hits) : List Hits :=
  match list.docHits with
  | some docHits => if list.pooled then docHits :: pool else pool
  | none => pool

/-- The newest entries if there are too many; `none` is its `FAIL`. -/
def readFromDb (env : Env) (wordid : Nat) : Option (List DocHit) :=
  match env.posting wordid with
  | .failed => none
  | .absent => some []
  | .entries hits => some (hits.drop (hits.length - env.maxDocHitsSize))

def meets (hit : DocHit) (field : BitVec 32) : Bool := hit.field &&& field ≠ 0

/-- The loop that moves the entries of the wanted fields to the front. -/
def filterField (field : BitVec 32) : (remaining index idx : Nat) → Hits → Nat × Hits
  | 0, _, idx, docHits => (idx, docHits)
  | remaining + 1, index, idx, docHits =>
    if meets (docHits index) field then
      filterField field remaining (index + 1) (idx + 1)
        (Function.update docHits idx (docHits index))
    else filterField field remaining (index + 1) idx docHits

/-- The inner `none` is a null result. -/
def readIndexList (env : Env) (list : IndexList) (pool : List Hits) :
    Option IndexList × List Hits :=
  if list.docHits.isSome ∨ list.listType = .fakeOp ∨ list.listType = .notExistWord then
    (some list, pool)
  else
    let ((docHits, pooled), pool) := getCompleteList pool
    match readFromDb env list.wordid with
    | none => (none, if pooled then docHits :: pool else pool)
    | some hits =>
      let docHits := docHits.write 0 hits
      if list.field = BitVec.allOnes 32 then
        (some { list with
          ndochits := hits.length
          docHits := some docHits
          pooled := pooled }, pool)
      else
        let filtered := filterField list.field hits.length 0 0 docHits
        (some { list with
          ndochits := filtered.1
          docHits := some filtered.2
          pooled := pooled }, pool)

/-! `AND` and `OR` of two lists. -/

def firstDocument : List DocHit → List DocHit × List DocHit
  | [] => ([], [])
  | hit :: hits =>
    (hit :: hits.takeWhile (fun other => other.id = hit.id),
      hits.dropWhile (fun other => other.id = hit.id))

/-- `init_result_document` clears the fields it is going to write. -/
def initResultDocument (docHits : Hits) (start nelm : Nat) : Hits :=
  fun index =>
    if start ≤ index ∧ index < start + nelm then { docHits index with field := 0 }
    else docHits index

abbrev Result := Hits × Nat

/-- `init_index_document`, `init_result_document` and
`append_to_result_document` of the entries of one document. -/
def appendDocument (env : Env) (result : Result) (document : List DocHit) : Option Result :=
  let maxDochits := min maxResultDochitsPerDoc (env.maxDocHitsSize - result.2)
  if maxDochitsPerDocument < document.length then none
  else
    some ((initResultDocument result.1 result.2 maxDochits).write result.2
      (document.take maxDochits), result.2 + min document.length maxDochits)

def appendBoth (env : Env) (result : Result) (first second : List DocHit) : Option Result :=
  match appendDocument env result first with
  | none => none
  | some result => appendDocument env result second

/-- The loop of `operate_and_each_list`; every turn takes at least one entry, so
`fuel` is not used up. -/
def operateAndFrom (env : Env) :
    (fuel : Nat) → (l1 l2 : List DocHit) → Result → Option Result
  | 0, _, _, _ => none
  | fuel + 1, hit1 :: hits1, hit2 :: hits2, result =>
    let doc1 := firstDocument (hit1 :: hits1)
    let doc2 := firstDocument (hit2 :: hits2)
    if hit1.id < hit2.id then operateAndFrom env fuel doc1.2 (hit2 :: hits2) result
    else if hit2.id < hit1.id then operateAndFrom env fuel (hit1 :: hits1) doc2.2 result
    else
      match appendBoth env result doc1.1 doc2.1 with
      | none => none
      | some result =>
        if env.maxDocHitsSize ≤ result.2 then some result
        else operateAndFrom env fuel doc1.2 doc2.2 result
  | _ + 1, _, _, result => some result

def operateAndEachList (env : Env) (l1 l2 : List DocHit) (docHits : Hits) : Option Result :=
  operateAndFrom env (l1.length + l2.length + 1) l1 l2 (docHits, 0)

/-- The loop of `operate_or_each_list`. -/
def operateOrFrom (env : Env) :
    (fuel : Nat) → (l1 l2 : List DocHit) → Result → Option Result
  | 0, _, _, _ => none
  | _ + 1, [], [], result => some result
  | fuel + 1, [], hit2 :: hits2, result =>
    let doc2 := firstDocument (hit2 :: hits2)
    match appendDocument env result doc2.1 with
    | none => none
    | some result =>
      if env.maxDocHitsSize ≤ result.2 then some result
      else operateOrFrom env fuel [] doc2.2 result
  | fuel + 1, hit1 :: hits1, [], result =>
    let doc1 := firstDocument (hit1 :: hits1)
    match appendDocument env result doc1.1 with
    | none => none
    | some result =>
      if env.maxDocHitsSize ≤ result.2 then some result
      else operateOrFrom env fuel doc1.2 [] result
  | fuel + 1, hit1 :: hits1, hit2 :: hits2, result =>
    let doc1 := firstDocument (hit1 :: hits1)
    let doc2 := firstDocument (hit2 :: hits2)
    if hit1.id < hit2.id then
      match appendDocument env result doc1.1 with
      | none => none
      | some result =>
        if env.maxDocHitsSize ≤ result.2 then some result
        else operateOrFrom env fuel doc1.2 (hit2 :: hits2) result
    else if hit2.id < hit1.id then
      match appendDocument env result doc2.1 with
      | none => none
      | some result =>
        if env.maxDocHitsSize ≤ result.2 then some result
        else operateOrFrom env fuel (hit1 :: hits1) doc2.2 result
    else
      match appendBoth env result doc1.1 doc2.1 with
      | none => none
      | some result =>
        if env.maxDocHitsSize ≤ result.2 then some result
        else operateOrFrom env fuel doc1.2 doc2.2 result

def operateOrEachList (env : Env) (l1 l2 : List DocHit) (docHits : Hits) : Option Result :=
  operateOrFrom env (l1.length + l2.length + 1) l1 l2 (docHits, 0)

/-! `AND` with one negated list. -/

def skipBelow (docHits : Hits) (docid : Nat) : (remaining idx2 : Nat) → Nat
  | 0, idx2 => idx2
  | remaining + 1, idx2 =>
    if (docHits idx2).id < docid then skipBelow docHits docid remaining (idx2 + 1) else idx2

/-- The loop over the positive list. The entry it compares with may stand behind
the end of the negated one. -/
def andNotFrom (env : Env) (negated : Hits) (ndochits : Nat) :
    (idx2 : Nat) → (operand : List DocHit) → Result → Option Result
  | _, [], result => some result
  | idx2, hit :: operand, (docHits, idx3) =>
    let idx2 := skipBelow negated hit.id (ndochits - idx2) idx2
    if env.maxDocHitsSize ≤ idx2 then none
    else if (negated idx2).id = hit.id then
      andNotFrom env negated ndochits idx2 operand (docHits, idx3)
    else
      andNotFrom env negated ndochits idx2 operand
        (Function.update docHits idx3 hit, idx3 + 1)

/-! The stack, its top first. `merged` records the lengths of the lists that
`AND` and `OR` have made. -/

structure Search where
  pool : List Hits
  stack : List IndexList
  merged : List Nat

def mergedList (docHits : Hits) (pooled : Bool) (ndochits : Nat) (field : BitVec 32) :
    IndexList where
  wordid := 0
  field := field
  listType := .normal
  ndochits := ndochits
  docHits := some docHits
  pooled := pooled

def operatorAndWithNot (env : Env) (search : Search) : Option (Ret × Search) :=
  match search.stack with
  | operand2 :: operand1 :: rest =>
    let (read2, pool) := readIndexList env operand2 search.pool
    let (read1, pool) := readIndexList env operand1 pool
    match read1, read2 with
    | some operand1, some operand2 =>
      let pair :=
        if operand1.listType = .exclude then some (operand1, operand2)
        else if operand2.listType = .exclude then some (operand2, operand1)
        else none
      match pair with
      | none =>
        some (.fail, { search with
          pool := releaseList operand2 (releaseList operand1 pool)
          stack := rest })
      | some (negated, operand) =>
        if operand.listType = .fakeOp then
          some (.success, { search with
            pool := releaseList negated pool
            stack := operand :: rest })
        else
          let ((docHits, pooled), pool) := getCompleteList pool
          match negated.docHits with
          | none => none
          | some negatedHits =>
            match andNotFrom env negatedHits negated.ndochits 0 operand.hits
                (docHits, 0) with
            | none => none
            | some (docHits, idx3) =>
              some (.success, { search with
                pool := releaseList negated (releaseList operand pool)
                stack := mergedList docHits pooled idx3 0 :: rest })
    | some operand1, none =>
      some (.fail, { search with pool := releaseList operand1 pool, stack := rest })
    | none, some operand2 =>
      some (.fail, { search with pool := releaseList operand2 pool, stack := rest })
    | none, none => some (.fail, { search with pool := pool, stack := rest })
  | stack =>
    some (.fail, { search with
      pool := stack.foldl (fun pool list => releaseList list pool) search.pool
      stack := [] })

/-- What `operate_and` and `operate_or` differ in. -/
structure Merge where
  eachList : Env → List DocHit → List DocHit → Hits → Option Result
  field : BitVec 32 → BitVec 32 → BitVec 32

def andMerge : Merge where
  eachList := operateAndEachList
  field := fun field1 field2 => field1 &&& field2

def orMerge : Merge where
  eachList := operateOrEachList
  field := fun field1 field2 => field1 ||| field2

/-- The loop over the operands of `operate_and` and `operate_or`. -/
def mergeOperands (merge : Merge) (env : Env) : Nat → Search → Option (Ret × Search)
  | numOfOperands + 2, search =>
    match search.stack with
    | l2 :: l1 :: rest =>
      let (read2, pool) := readIndexList env l2 search.pool
      let (read1, pool) := readIndexList env l1 pool
      match read1, read2 with
      | some l1, some l2 =>
        if l1.listType = .fakeOp then
          mergeOperands merge env (numOfOperands + 1)
            { search with pool := releaseList l1 pool, stack := l2 :: rest }
        else if l2.listType = .fakeOp then
          mergeOperands merge env (numOfOperands + 1)
            { search with pool := releaseList l2 pool, stack := l1 :: rest }
        else
          let ((docHits, pooled), pool) := getCompleteList pool
          match merge.eachList env l1.hits l2.hits docHits with
          | none => none
          | some (docHits, idx3) =>
            mergeOperands merge env (numOfOperands + 1)
              { pool := releaseList l2 (releaseList l1 pool)
                stack := mergedList docHits pooled idx3
                  (merge.field l1.field l2.field) :: rest
                merged := idx3 :: search.merged }
      | some l1, none =>
        some (.fail, { search with pool := releaseList l1 pool, stack := rest })
      | none, some l2 =>
        some (.fail, { search with pool := releaseList l2 pool, stack := rest })
      | none, none => some (.fail, { search with pool := pool, stack := rest })
    | stack =>
      some (.fail, { search with
        pool := stack.foldl (fun pool list => releaseList list pool) search.pool
        stack := [] })
  | _, search => some (.success, search)

def isExclude (list : IndexList) : Bool := list.listType = .exclude

def operateAnd (env : Env) (numOfOperands : Nat) (search : Search) : Option (Ret × Search) :=
  match search.stack with
  | operand2 :: operand1 :: _ =>
    if isExclude operand1 || isExclude operand2 then operatorAndWithNot env search
    else mergeOperands andMerge env numOfOperands search
  | _ => mergeOperands andMerge env numOfOperands search

def operateOr (env : Env) (numOfOperands : Nat) (search : Search) : Option (Ret × Search) :=
  mergeOperands orMerge env numOfOperands search

def operatorNot (numOfOperands : Nat) (search : Search) : Ret × Search :=
  match search.stack with
  | [] => (.fail, search)
  | operand :: rest =>
    if numOfOperands ≠ 1 then (.fail, search)
    else (.success, { search with stack := { operand with listType := .exclude } :: rest })

inductive Operator where
  | and
  | or
  | not
  | within
  | phrase
  | other
  deriving DecidableEq

inductive QueryNode where
  | operand (wordid : Nat) (field : BitVec 32) (fake : Bool)
  | operator (operator : Operator) (numOfOperands : Nat)
  deriving DecidableEq

def operate (env : Env) (operator : Operator) (numOfOperands : Nat) (search : Search) :
    Option (Ret × Search) :=
  match operator with
  | .and => operateAnd env numOfOperands search
  | .or => operateOr env numOfOperands search
  | .not => some (operatorNot numOfOperands search)
  | .within => none
  | .phrase => none
  | .other => some (.fail, search)

/-- A list from `get_incomplete_list`, set up for an operand; `set_index_list`
is called only for the last kind. -/
def operandList (wordid : Nat) (field : BitVec 32) (fake : Bool) : IndexList :=
  let cleared : IndexList := {
    wordid := 0
    field := 0
    listType := .exclude
    ndochits := 0
    docHits := none
    pooled := false }
  if fake then { cleared with listType := .fakeOp }
  else if wordid = 0 then { cleared with listType := .notExistWord }
  else { cleared with wordid := wordid, field := field, listType := .normal }

/-- The loop of `do_search_operation`. -/
def operateNodes (env : Env) : List QueryNode → Search → Option (Ret × Search)
  | [], search => some (.success, search)
  | .operand wordid field fake :: nodes, search =>
    operateNodes env nodes
      { search with stack := operandList wordid field fake :: search.stack }
  | .operator operator numOfOperands :: nodes, search =>
    match operate env operator numOfOperands search with
    | none => none
    | some (.fail, search) => some (.fail, search)
    | some (.success, search) => operateNodes env nodes search

structure Outcome where
  result : Option IndexList
  pool : List Hits
  merged : List Nat

/-- No result stands for `FAIL`. -/
def doSearchOperation (env : Env) (nodes : List QueryNode) (pool : List Hits) :
    Option Outcome :=
  let failed := fun (search : Search) => Outcome.mk none
    (search.stack.foldl (fun pool list => releaseList list pool) search.pool) search.merged
  match operateNodes env nodes { pool := pool, stack := [], merged := [] } with
  | none => none
  | some (.fail, search) => some (failed search)
  | some (.success, search) =>
    match search.stack with
    | [list] =>
      let (result, pool) := readIndexList env list search.pool
      some { result := result, pool := pool, merged := search.merged }
    | _ => some (failed search)

end Wisebot.Qp
