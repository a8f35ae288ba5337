import Mathlib.Algebra.Ring.Nat
import Mathlib.Data.Int.Basic
import Mathlib.Data.List.Basic

namespace Wisebot.Vdoc

/-! The document-level operations of `mod_qp2` on the list of a query, and the
virtual documents that are made of what they leave. The list has one entry for
each document. Group counts for the answer, the node ids of agents and the limits
of the rule arrays are left out. -/

/-- The low 32 bits of an integer as an `int`. -/
def toInt32 (number : Int) : Int := number.bmod 4294967296

inductive KeyType where
  | docattr
  | did
  | relevancy
deriving DecidableEq, Repr

/-- `key_rule_t` -/
structure KeyRule where
  type : KeyType
  name : String
deriving DecidableEq, Repr

inductive OrderType where
  | asc
  | desc
deriving DecidableEq, Repr

def OrderType.sign : OrderType → Int
  | .asc => 1
  | .desc => -1

structure OrderbyRule where
  rule : KeyRule
  type : OrderType
deriving DecidableEq, Repr

structure Limit where
  start : Int
  cnt : Int
deriving DecidableEq, Repr

structure GroupbyRule where
  sort : OrderbyRule
  limit : Limit
deriving DecidableEq, Repr

inductive Operation where
  | whereClause (clause : String)
  | groupBy (rules : List GroupbyRule)
  | countBy (rules : List GroupbyRule)
  | orderBy (rules : List OrderbyRule)
  | limit (rule : Limit)
deriving DecidableEq, Repr

/-- The parts of `doc_hit_t` that the operations read. -/
structure DocHit where
  id : UInt32
  hitratio : Nat
deriving DecidableEq, Repr

/-- What `get_func` of a field finds in a record: `Integer`, `Enum` and `Bit`
fields give a `long`, `MD5` fields 64 bits and `String` fields the address of
their bytes. -/
inductive DocattrValue where
  | integer (value : Int)
  | md5 (value : Nat)
  | string (bytes : List UInt8) (address : Nat)
deriving DecidableEq, Repr

/-- The fields by their names, with their values in the records of the documents. -/
abbrev Docattr := String → Option (UInt32 → DocattrValue)

/-- `get_integer_function`: the union read as a `long` and cut to an `int`. -/
def DocattrValue.toInteger : DocattrValue → Int
  | .integer value => toInt32 value
  | .md5 value => toInt32 value
  | .string _ address => toInt32 address

section Attributes

variable (docattr : Docattr) (hangulCompare : List UInt8 → List UInt8 → Int)

def getInteger (name : String) (docid : UInt32) : Option Int :=
  (docattr name).map fun value => (value docid).toInteger

/-- `compare_func` of the field: the difference of the numbers goes through an `int`. -/
def compareValues : DocattrValue → DocattrValue → Int
  | .integer first, .integer second => toInt32 (first - second)
  | .md5 first, .md5 second => toInt32 (first - second)
  | .string first _, .string second _ => hangulCompare first second
  | _, _ => 0

/-- `qp_cb_orderby_document` from a rule on; a name that is no field ends it. -/
def cbOrderbyDocument : List OrderbyRule → DocHit → DocHit → Int
  | [], _, _ => 0
  | order :: rest, dest, sour =>
    let next := fun (diff : Int) =>
      if diff ≠ 0 then (if diff > 0 then 1 else -1) * order.type.sign
      else cbOrderbyDocument rest dest sour
    match order.rule.type with
    | .relevancy => next (dest.hitratio - sour.hitratio)
    | .did => next (toInt32 (dest.id.toNat - sour.id.toNat))
    | .docattr =>
      match docattr order.rule.name with
      | none => 0
      | some value => next (compareValues hangulCompare (value dest.id) (value sour.id))

end Attributes

/-- The key of a document under a rule; every rule that is no attribute gives the id. -/
def keyValue (docattr : Docattr) (dochit : DocHit) (rule : KeyRule) : Option Int :=
  match rule.type with
  | .docattr => getInteger docattr rule.name dochit.id
  | _ => some (toInt32 dochit.id.toNat)

/-- `virtual_id_list` -/
def virtualIdList (docattr : Docattr) (rules : List KeyRule) (dochit : DocHit) :
    Option (List Int) :=
  rules.mapM (keyValue docattr dochit)

section Grouping

variable (docattr : Docattr) (virtualRules : List KeyRule)

/-- `document_get_group_values` -/
def documentGroupValues (rules : List GroupbyRule) (dochit : DocHit) : Option (List Int) :=
  rules.mapM fun rule => getInteger docattr rule.sort.rule.name dochit.id

/-- `is_remove`: one of the groups is outside its limit. -/
def isRemove (rules : List GroupbyRule) (groupCount : List Int) : Bool :=
  (rules.zip groupCount).any fun (rule, count) =>
    !(rule.limit.start = -1 || rule.limit.cnt = -1) &&
      (count < rule.limit.start || count > rule.limit.start + rule.limit.cnt - 1)

/-- The counts behind a document that has the values of the first in some groups. -/
def countGroups : (curr next groupCount : List Int) → List Int
  | value :: curr, other :: next, count :: groupCount =>
    (if value = other then count + 1 else count) :: countGroups curr next groupCount
  | _, _, groupCount => groupCount

/-- The inner loop of `document_grouping`: the documents with the key of the first,
and the list from the first document with another key on. -/
def groupingSame (rules : List GroupbyRule) (curr key : List Int) :
    (groupCount : List Int) → List DocHit → Option (List DocHit × List DocHit)
  | _, [] => some ([], [])
  | groupCount, dochit :: rest =>
    match virtualIdList docattr virtualRules dochit with
    | none => none
    | some other =>
      if other ≠ key then some ([], dochit :: rest)
      else
        match documentGroupValues docattr rules dochit with
        | none => none
        | some next =>
          match groupingSame rules curr key (countGroups curr next groupCount) rest with
          | none => none
          | some (kept, behind) =>
            some (if isRemove rules groupCount then kept else dochit :: kept, behind)

/-- The outer loop of `document_grouping`. -/
def groupingFrom (rules : List GroupbyRule) : (fuel : Nat) → List DocHit → Option (List DocHit)
  | _, [] => some []
  | 0, _ :: _ => none
  | fuel + 1, dochit :: rest =>
    let groupCount := rules.map fun _ => (0 : Int)
    match documentGroupValues docattr rules dochit, virtualIdList docattr virtualRules dochit with
    | some curr, some key =>
      match groupingSame docattr virtualRules rules curr key (groupCount.map (· + 1)) rest with
      | none => none
      | some (kept, behind) =>
        match groupingFrom rules fuel behind with
        | none => none
        | some later =>
          some ((if isRemove rules groupCount then kept else dochit :: kept) ++ later)
    | _, _ => none

def documentGrouping (rules : List GroupbyRule) (list : List DocHit) : Option (List DocHit) :=
  if rules = [] then some list else groupingFrom docattr virtualRules rules list.length list

end Grouping

section Operations

variable (docattr : Docattr) (hangulCompare : List UInt8 → List UInt8 → Int)
  (qsort2 : (DocHit → DocHit → Int) → List DocHit → List DocHit)
  (setWhereExpression : String → Option (UInt32 → Bool)) (virtualRules : List KeyRule)

/-- The keys of virtual documents that are no ids come first in every order. -/
def virtualOrder : List OrderbyRule :=
  (virtualRules.filter fun rule => decide (rule.type ≠ .did)).map fun rule => ⟨rule, .asc⟩

/-- `operation_groupby_orderby` for documents. -/
def operationGroupbyOrderby (groupbyRules : Option (List GroupbyRule))
    (orderbyRules : Option (List OrderbyRule)) (list : List DocHit) : Option (List DocHit) :=
  let joined := virtualOrder virtualRules ++
    (groupbyRules.getD []).map GroupbyRule.sort ++ orderbyRules.getD []
  let sorted := qsort2 (cbOrderbyDocument docattr hangulCompare joined) list
  match groupbyRules with
  | none => some sorted
  | some rules => documentGrouping docattr virtualRules rules sorted

/-- `operation_countby`: the rules of the order are joined, but nothing is sorted. -/
def operationCountby (groupbyRules : List GroupbyRule) (list : List DocHit) :
    Option (List DocHit) :=
  documentGrouping docattr virtualRules groupbyRules list

def operationWhere (clause : String) (list : List DocHit) : Option (List DocHit) :=
  (setWhereExpression clause).map fun holds => list.filter fun dochit => holds dochit.id

/-- A negative start is a great unsigned number when it is compared. -/
def operationLimit (rule : Limit) (list : List DocHit) : List DocHit :=
  if rule.start < 0 then [] else (list.drop rule.start.toNat).take rule.cnt.toNat

/-- The rules of the `GROUP BY` and `COUNT BY` operations that stand next, and
the operations behind them. -/
def joinGroupBy (rules : List GroupbyRule) : List Operation → List GroupbyRule × List Operation
  | .groupBy more :: rest => joinGroupBy (rules ++ more) rest
  | .countBy more :: rest => joinGroupBy (rules ++ more) rest
  | rest => (rules, rest)

def joinCountBy (rules : List GroupbyRule) : List Operation → List GroupbyRule × List Operation
  | .countBy more :: rest => joinCountBy (rules ++ more) rest
  | rest => (rules, rest)

/-- `do_filter_operation` for documents. -/
def doFilterOperation : (fuel : Nat) → List Operation → List DocHit → Option (List DocHit)
  | _, [], list => some list
  | 0, _ :: _, _ => none
  | fuel + 1, .groupBy rules :: rest, list =>
    match joinGroupBy rules rest with
    | (joined, .orderBy order :: behind) =>
      (operationGroupbyOrderby docattr hangulCompare qsort2 virtualRules (some joined)
        (some order) list).bind (doFilterOperation fuel behind)
    | (joined, behind) =>
      (operationGroupbyOrderby docattr hangulCompare qsort2 virtualRules (some joined)
        none list).bind (doFilterOperation fuel behind)
  | fuel + 1, .countBy rules :: rest, list =>
    let (joined, behind) := joinCountBy rules rest
    (operationCountby docattr virtualRules joined list).bind (doFilterOperation fuel behind)
  | fuel + 1, .orderBy order :: rest, list =>
    (operationGroupbyOrderby docattr hangulCompare qsort2 virtualRules none (some order)
      list).bind (doFilterOperation fuel rest)
  | fuel + 1, .whereClause clause :: rest, list =>
    (operationWhere setWhereExpression clause list).bind (doFilterOperation fuel rest)
  | fuel + 1, .limit rule :: rest, list =>
    doFilterOperation fuel rest (operationLimit rule list)

/-- All operations of a request, which are at least as many as the steps. -/
def filterDocuments (operations : List Operation) (list : List DocHit) : Option (List DocHit) :=
  doFilterOperation docattr hangulCompare qsort2 setWhereExpression virtualRules
    operations.length operations list

end Operations

/-- `virtual_document_t`; `dochits` are the entries from the pointer on. -/
structure VirtualDocument where
  id : Int
  dochits : List DocHit
  relevance : Nat
deriving DecidableEq, Repr

section VirtualDocuments

variable (docattr : Docattr) (virtualRules : List KeyRule)

/-- The inner loop of `make_virtual_document`: the neighbours with the same key. -/
def extendVirtual (key : List Int) :
    VirtualDocument → List DocHit → Option (VirtualDocument × List DocHit)
  | vd, [] => some (vd, [])
  | vd, dochit :: rest =>
    match virtualIdList docattr virtualRules dochit with
    | none => none
    | some next =>
      if key = next then
        extendVirtual key
          { vd with
            dochits := vd.dochits ++ [dochit]
            relevance := (vd.relevance + dochit.hitratio) % 4294967296 } rest
      else some (vd, dochit :: rest)

/-- The outer loop. -/
def makeVirtualFrom : (fuel : Nat) → List DocHit → Option (List VirtualDocument)
  | _, [] => some []
  | 0, _ :: _ => none
  | fuel + 1, dochit :: rest =>
    match virtualIdList docattr virtualRules dochit with
    | none => none
    | some key =>
      match extendVirtual docattr virtualRules key
          ⟨key.headD 0, [dochit], dochit.hitratio % 4294967296⟩ rest with
      | none => none
      | some (vd, behind) =>
        match makeVirtualFrom fuel behind with
        | none => none
        | some later => some (vd :: later)

def makeVirtualDocument (list : List DocHit) : Option (List VirtualDocument) :=
  makeVirtualFrom docattr virtualRules list.length list

end VirtualDocuments

end Wisebot.Vdoc
