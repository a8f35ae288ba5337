import Wisebot.Lib.Places
import Wisebot.Vdoc.Comparators

namespace Wisebot.Grouping

open Vdoc Lib.Places

/-! The group counts of `mod_qp2`, on virtual documents and on document hits. A
`none` is `FAIL`, an index outside the table or a limit that runs over an `int`. -/

/-- `MAX_GROUP_RULE` -/
def maxGroupRule : Nat := 8

/-- `MAX_CARDINALITY` -/
def maxCardinality : Nat := 1024

/-- `result` of `groupby_result_list_t`: the count of a value under a rule. -/
abbrev GroupTable := Nat → Nat → Nat

/-- `result[j][value]++` -/
def GroupTable.increase (table : GroupTable) (j value : Nat) : Option GroupTable :=
  if j < maxGroupRule ∧ value < maxCardinality then
    some fun row column => if row = j ∧ column = value then table row column + 1
      else table row column
  else none

def InInt (number : Int) : Prop := -2147483648 ≤ number ∧ number < 2147483648

instance (number : Int) : Decidable (InInt number) := inferInstanceAs (Decidable (_ ∧ _))

def Limited (limit : Limit) : Prop := limit.start ≠ -1 ∧ limit.cnt ≠ -1

instance (limit : Limit) : Decidable (Limited limit) := inferInstanceAs (Decidable (_ ∧ _))

/-- The end of a limit that a rank is compared with is no `int`. -/
def Overflows (limit : Limit) (rank : Nat) : Prop :=
  Limited limit ∧ limit.start ≤ rank ∧
    ¬ (InInt (limit.start + limit.cnt) ∧ InInt (limit.start + limit.cnt - 1))

instance (limit : Limit) (rank : Nat) : Decidable (Overflows limit rank) :=
  inferInstanceAs (Decidable (_ ∧ _ ∧ _))

/-- What a rule adds to `is_remove`. -/
def removes (limit : Limit) (rank : Nat) : Option Bool :=
  if limit.start = -1 ∨ limit.cnt = -1 then some false
  else if (rank : Int) < limit.start then some true
  else if InInt (limit.start + limit.cnt) ∧ InInt (limit.start + limit.cnt - 1) then
    some (decide ((rank : Int) > limit.start + limit.cnt - 1))
  else none

section Grouping

variable (docattr : Docattr) (virtualRules : List KeyRule)

/-- The loop of `virtual_document_group_count` from the rule `j` on; a value beyond the
cardinality ends it. -/
def virtualDocumentGroupCount (vd : VirtualEntry) :
    (j : Nat) → List GroupbyRule → GroupTable → (isRemove : Bool) → Option (Bool × GroupTable)
  | _, [], table, isRemove => some (isRemove, table)
  | j, rule :: rest, table, isRemove =>
    match getInteger docattr rule.sort.rule.name vd.docattr with
    | none => none
    | some number =>
      let value := (number % 4294967296).toNat
      if value > maxCardinality then some (true, table)
      else
        match removes rule.limit (table j value), table.increase j value with
        | some removed, some table =>
          virtualDocumentGroupCount vd (j + 1) rest table (isRemove || removed)
        | _, _ => none

def virtualGroupingFrom (rules : List GroupbyRule) :
    GroupTable → List VirtualEntry → Option (List VirtualEntry × GroupTable)
  | table, [] => some ([], table)
  | table, vd :: rest =>
    match virtualDocumentGroupCount docattr vd 0 rules table false with
    | none => none
    | some (isRemove, table) =>
      match virtualGroupingFrom rules table rest with
      | none => none
      | some (kept, table) => some (if isRemove then kept else vd :: kept, table)

def virtualDocumentGrouping (rules : List GroupbyRule) (table : GroupTable)
    (list : List VirtualEntry) : Option (List VirtualEntry × GroupTable) :=
  if rules = [] then some (list, table) else virtualGroupingFrom docattr rules table list

/-- The limits and counts of one hit under all rules: the values `checked` are tested
against the cardinality and the values `counted` are counted. -/
def countGroupValues : (j : Nat) → List GroupbyRule → (groupCount : List Nat) →
    (checked counted : List Int) → GroupTable → Option (Bool × GroupTable)
  | j, rule :: rules, rank :: groupCount, check :: checked, value :: counted, table =>
    match removes rule.limit rank,
        (if check < maxCardinality then
          if value < 0 then none else table.increase j value.toNat
        else some table) with
    | some removed, some table =>
      match countGroupValues (j + 1) rules groupCount checked counted table with
      | none => none
      | some (isRemove, table) => some (removed || isRemove, table)
    | _, _ => none
  | _, _, _, _, _, table => some (false, table)

/-- The values and the key of the first hit of a virtual document, and `group_count`. -/
structure GroupRun where
  currGroupValues : List Int
  virtualIdList : List Int
  groupCount : List Nat

/-- The run that a hit goes on with, or the one that it begins. -/
def GroupRun.next (run : Option GroupRun) (groupValues key : List Int) : GroupRun :=
  match run with
  | none => ⟨groupValues, key, groupValues.map fun _ => 0⟩
  | some run =>
    if run.virtualIdList = key then run else ⟨groupValues, key, groupValues.map fun _ => 0⟩

/-- `group_count` behind a hit: it is counted where it has the first hit's value. -/
def GroupRun.counted (run : GroupRun) (groupValues : List Int) : GroupRun :=
  { run with
    groupCount := run.groupCount.zipWith (fun count same => if same then count + 1 else count)
      (run.currGroupValues.zipWith (fun curr next => decide (curr = next)) groupValues) }

/-- Both loops of `document_grouping`: the first hit of a virtual document is counted
like those behind it, with its own values as the values of the run. -/
def documentGroupingFrom (rules : List GroupbyRule) :
    Option GroupRun → GroupTable → List DocHit → Option (List DocHit × GroupTable)
  | _, table, [] => some ([], table)
  | run, table, docHit :: rest =>
    match documentGroupValues docattr rules docHit,
        virtualIdList docattr virtualRules docHit with
    | some groupValues, some key =>
      let run := GroupRun.next run groupValues key
      match countGroupValues 0 rules run.groupCount groupValues run.currGroupValues table with
      | none => none
      | some (isRemove, table) =>
        match documentGroupingFrom rules (some (run.counted groupValues)) table rest with
        | none => none
        | some (kept, table) => some (if isRemove then kept else docHit :: kept, table)
    | _, _ => none

def documentGrouping (rules : List GroupbyRule) (table : GroupTable) (list : List DocHit) :
    Option (List DocHit × GroupTable) :=
  if rules = [] then some (list, table)
  else documentGroupingFrom docattr virtualRules rules none table list

def groupValue (rule : GroupbyRule) (docid : UInt32) : Nat :=
  ((getInteger docattr rule.sort.rule.name docid).getD 0).toNat

/-- Every group field of a document has a value of the table. -/
def InRange (rules : List GroupbyRule) (docid : UInt32) : Prop :=
  ∀ rule ∈ rules, ∃ value < maxCardinality,
    getInteger docattr rule.sort.rule.name docid = some (value : Int)

def Counted (rules : List GroupbyRule) (docids : List UInt32) (table : GroupTable) : Prop :=
  ∀ j rule, rules[j]? = some rule → ∀ value < maxCardinality,
    table j value = docids.countP fun docid => groupValue docattr rule docid = value

def Cleared (rules : List GroupbyRule) (table : GroupTable) : Prop :=
  ∀ j < rules.length, ∀ value < maxCardinality, table j value = 0

def groupRank (rule : GroupbyRule) (before : List UInt32) (docid : UInt32) : Nat :=
  before.countP fun other => groupValue docattr rule other = groupValue docattr rule docid

/-- The rank is in `[start, start + cnt)`, if there is a limit. -/
def WithinLimit (limit : Limit) (rank : Nat) : Prop :=
  Limited limit → limit.start ≤ rank ∧ (rank : Int) < limit.start + limit.cnt

instance (limit : Limit) (rank : Nat) : Decidable (WithinLimit limit rank) :=
  inferInstanceAs (Decidable (_ → _))

def ranked (list : List VirtualEntry) : List (List VirtualEntry × VirtualEntry) :=
  places (fun _ _ => true) list

def virtualRank (rule : GroupbyRule) (place : List VirtualEntry × VirtualEntry) : Nat :=
  groupRank docattr rule (place.1.map VirtualEntry.docattr) place.2.docattr

def keptWithin (rules : List GroupbyRule) (list : List VirtualEntry) : List VirtualEntry :=
  ((ranked list).filter fun place =>
    rules.all fun rule => WithinLimit rule.limit (virtualRank docattr rule place)).map Prod.snd

def hitPlaces (list : List DocHit) : List (List DocHit × DocHit) :=
  places (fun first other =>
    virtualIdList docattr virtualRules first = virtualIdList docattr virtualRules other) list

/-- `group_count` of a hit: how many before it have the value of the first. -/
def hitRank (rule : GroupbyRule) (place : List DocHit × DocHit) : Nat :=
  groupRank docattr rule (place.1.map DocHit.id) (first place).id

/-- As many hits with a value follow a first hit with another one, as hits with
another value follow a first hit with this one. -/
def Balanced (rules : List GroupbyRule) (list : List DocHit) : Prop :=
  ∀ rule ∈ rules, ∀ value < maxCardinality,
    (hitPlaces docattr virtualRules list).countP (fun place =>
        groupValue docattr rule place.2.id = value ∧
          groupValue docattr rule (first place).id ≠ value) =
      (hitPlaces docattr virtualRules list).countP fun place =>
        groupValue docattr rule (first place).id = value ∧
          groupValue docattr rule place.2.id ≠ value

end Grouping

end Wisebot.Grouping
