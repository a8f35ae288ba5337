import Wisebot.Query.Scanning

namespace Wisebot.Query

/-! The request that `init_request` (`mod_qp/mod_qp2.c`) makes of the text of a
query: one clause a line, each kept as text and in parts. Names and clauses are cut
to the sizes of their buffers. The fields of the configuration are given; log
messages and the number of virtual documents, which is set to zero, are left out. -/

open Agent Lib.Looping

def shortStringSize : Nat := 64

def longStringSize : Nat := 1024

def longLongStringSize : Nat := 8192

/-- `MAX_QUERY_STRING_SIZE` -/
def maxQueryStringSize : Nat := longStringSize

def maxExtField : Nat := 64

def maxWeight : Nat := 16

def maxVidRule : Nat := 5

def maxGroupRule : Nat := 8

def maxSortRule : Nat := 32

def maxOperation : Nat := 16

structure SelectField where
  name : Text
  isHighlight : Bool
  commentLength : Int
  deriving DecidableEq

instance : Inhabited SelectField := ⟨⟨[], false, 0⟩⟩

/-- The fields behind the first `cnt` keep what was written to them before. -/
structure SelectList where
  cnt : Nat
  field : Vector SelectField maxExtField
  clause : Text
  deriving DecidableEq

structure Weight where
  weight : Int
  fieldId : Int
  name : Text
  deriving DecidableEq

structure WeightList where
  reset : Bool
  resetValue : Int
  list : List Weight
  clause : Text
  deriving DecidableEq

inductive KeyType where
  | docattr
  | did
  | relevancy
  deriving DecidableEq

structure KeyRule where
  type : KeyType
  name : Text
  deriving DecidableEq

structure VirtualRuleList where
  list : List KeyRule
  clause : Text
  deriving DecidableEq

/-- A rule that was skipped has no order. -/
inductive OrderType where
  | unset
  | asc
  | desc
  deriving DecidableEq

structure OrderbyRule where
  type : OrderType
  rule : KeyRule
  deriving DecidableEq

structure GroupbyRule where
  sort : OrderbyRule
  isEnum : Bool
  limit : Limit
  deriving DecidableEq

structure RuleList (α : Type) where
  list : List α
  clause : Text
  deriving DecidableEq

inductive OperationRule where
  | where (expression : Text)
  | groupby (rules : RuleList GroupbyRule)
  | orderby (rules : RuleList OrderbyRule)
  | limit (limit : Limit)
  deriving DecidableEq

structure Operation where
  type : ClauseType
  clause : Text
  rule : OperationRule
  deriving DecidableEq

inductive OutputStyle where
  | xml
  | softbot4
  deriving DecidableEq

structure Request where
  query : Text
  search : Text
  selectList : SelectList
  weightList : WeightList
  opListVid : List Operation
  opListDid : List Operation
  virtualRuleList : VirtualRuleList
  isDelete : Bool
  outputStyle : OutputStyle
  deriving DecidableEq

/-- A request after `memset`. -/
def Request.zero : Request where
  query := []
  search := []
  selectList := ⟨0, Vector.replicate maxExtField default, []⟩
  weightList := ⟨false, 0, [], []⟩
  opListVid := []
  opListDid := []
  virtualRuleList := ⟨[], []⟩
  isDelete := false
  outputStyle := .xml

/-- The fields of the configuration, each with its name and id, and the greatest
number of comments. -/
structure Config where
  fieldInfo : List (Text × Int)
  commentListSize : Nat

/-- `strstr`: the place of the first occurrence. -/
def strstr (pattern : Text) : Text → Option Nat
  | [] => if pattern = [] then some 0 else none
  | char :: text =>
    if pattern.isPrefixOf (char :: text) then some 0
    else (strstr pattern text).map (· + 1)

/-- `*p = '\0'` -/
def cutAt (place : Option Nat) (text : Text) : Text :=
  match place with
  | none => text
  | some place => text.set place '\x00'

/-- A field's name with `:H` and a length between parentheses behind it. -/
def SelectField.parse (field : SelectField) (item : Text) : SelectField :=
  let name := sbTrim item
  let highlight := (strstr ":H".toList name).or (strstr ":h".toList name)
  let leftParen := name.findIdx? (· = '(')
  let rightParen := name.findIdx? (· = ')')
  let commentLength :=
    match leftParen, rightParen with
    | some left, some right => if left < right then some (left, right) else none
    | _, _ => none
  let name := cutAt highlight name
  let name := cutAt (commentLength.map Prod.fst) name
  let name := cutAt (commentLength.map Prod.snd) name
  { name := (cString name).take shortStringSize
    isHighlight := field.isHighlight || highlight.isSome
    commentLength :=
      match commentLength with
      | none => field.commentLength
      | some (left, _) => atoi (cString (name.drop (left + 1))) }

/-- `*` stands for all fields; nothing behind it is read. -/
def SelectList.all (list : SelectList) (item : Text) : SelectList :=
  let first : SelectField := list.field[0]
  { list with
    cnt := 1
    field := list.field.set 0
      { first with
        name := '*' :: first.name.tail
        isHighlight := first.isHighlight || hasKeyword item.tail ":H".toList } }

def selectField (list : SelectList) (item : Text) : Move SelectList :=
  if item.head? = some '*' then
    if list.cnt ≥ maxExtField then .stop list else .stop (list.all item)
  else if free : list.cnt < maxExtField then
    let field := (list.field[list.cnt]).parse item
    let list := { list with cnt := list.cnt + 1, field := list.field.set list.cnt field }
    if list.cnt ≥ maxExtField then .stop list else .next list
  else .fault .tableEnd

def setSelectClause (fuel : Nat) (list : SelectList) (clause : Text) :
    Option (Except Fault SelectList) :=
  let text := sbTrim clause
  if text = [] then some (.ok list)
  else
    scan ',' (fun list item => some (selectField list item)) fuel
      { list with clause := text.take (longStringSize - 1) } text

def isExistReturnField (config : Config) (name : Text) : Option Int :=
  (config.fieldInfo.find? fun field => equalsIgnoringCase field.1 name).map Prod.snd

/-- An item without a colon is left where it is. A field that is not known is
written to the table but not counted. -/
def weightField (config : Config) (list : WeightList) (item : Text) : Move WeightList :=
  if ':' ∈ item then
    let name := sbTrim (upTo ':' item)
    let value := atoi (behind ':' item)
    if equalsIgnoringCase "RESET".toList name then
      let list := { list with reset := true, resetValue := value }
      if list.list.length ≥ maxWeight then .stop list else .next list
    else if list.list.length < maxWeight then
      let name := name.take shortStringSize
      let list :=
        match isExistReturnField config name with
        | none => list
        | some fieldId => { list with list := list.list ++ [⟨value, fieldId, name⟩] }
      if list.list.length ≥ maxWeight then .stop list else .next list
    else .fault .tableEnd
  else .stay list

def setWeight (config : Config) (fuel : Nat) (list : WeightList) (clause : Text) :
    Option (Except Fault WeightList) :=
  let text := sbTrim clause
  if text = [] then some (.ok list)
  else
    scan ',' (fun list item => some (weightField config list item)) fuel
      { list with clause := text.take (longStringSize - 1) } text

def did : Text := "DID".toList

def relevancy : Text := "RELEVANCY".toList

def virtualIdField (list : VirtualRuleList) (item : Text) : Move VirtualRuleList :=
  if list.list.length < maxVidRule then
    let name := sbTrim item
    let rule : KeyRule :=
      if hasKeyword name did then ⟨.did, did⟩ else ⟨.docattr, name.take (shortStringSize - 1)⟩
    let list := { list with list := list.list ++ [rule] }
    if list.list.length ≥ maxVidRule then .stop list else .next list
  else .fault .tableEnd

def setVirtualId (fuel : Nat) (list : VirtualRuleList) (clause : Option Text) :
    Option (Except Fault VirtualRuleList) :=
  let text := (clause.map sbTrim).getD []
  if text = [] then
    if list.list.length < maxVidRule then
      some (.ok { list with list := list.list ++ [⟨.did, did⟩] })
    else some (.error .tableEnd)
  else
    scan ',' (fun list item => some (virtualIdField list item)) fuel
      { list with clause := text.take (longStringSize - 1) } text

def keyType (name : Text) : KeyType :=
  if hasKeyword name relevancy then .relevancy
  else if hasKeyword name did then .did else .docattr

/-- The limit behind the word `LIMIT`. -/
def GroupbyRule.setLimit (rule : GroupbyRule) (text : Text) : GroupbyRule :=
  let text := sbTrim text
  if ',' ∈ text then
    let start := atoi (upTo ',' text)
    { rule with limit := ⟨if start < 0 then 0 else start, atoi (behind ',' text)⟩ }
  else { rule with limit := ⟨0, atoi text⟩ }

/-- The first word is the name of the field; the word `LIMIT` takes all that is left
of the rule, and there is no string where nothing is left. -/
def groupbyWord (place : Bool × GroupbyRule) (token rest : Text) : Move (Bool × GroupbyRule) :=
  let rule := place.2
  let token := sbTrim token
  if place.1 = false then
    .next (true, { rule with sort := { rule.sort with
      rule := ⟨keyType token, token.take shortStringSize⟩ } })
  else if hasKeyword token "INT".toList then .next (true, { rule with isEnum := false })
  else if hasKeyword token "ASC".toList then
    .next (true, { rule with sort := { rule.sort with type := .asc } })
  else if hasKeyword token "DESC".toList then
    .next (true, { rule with sort := { rule.sort with type := .desc } })
  else if hasKeyword token "LIMIT".toList then
    if rest = [] then .fault .nullPointer else .stop (true, rule.setLimit rest)
  else .next (true, rule)

def GroupbyRule.default : GroupbyRule := ⟨⟨.asc, ⟨.docattr, []⟩⟩, true, ⟨-1, -1⟩⟩

def makeGroupbyRule (fuel : Nat) (clause : Text) : Option (Except Fault GroupbyRule) :=
  (tokens ' ' groupbyWord fuel (false, GroupbyRule.default) clause).map (Except.map Prod.snd)

/-- The loop stops behind one rule more than the table has room for. -/
def groupbyItem (fuel : Nat) (rules : RuleList GroupbyRule) (item : Text) :
    Option (Move (RuleList GroupbyRule)) :=
  if rules.list.length > maxGroupRule then some (.stop rules)
  else if rules.list.length < maxGroupRule then
    (makeGroupbyRule fuel item).map fun rule =>
      match rule with
      | .error fault => .fault fault
      | .ok rule => .next { rules with list := rules.list ++ [rule] }
  else some (.fault .tableEnd)

def makeGroupbyRuleList (fuel : Nat) (rules : RuleList GroupbyRule) (clause : Text) :
    Option (Except Fault (RuleList GroupbyRule)) :=
  let text := sbTrim clause
  if text = [] then some (.ok rules)
  else
    scan ';' (groupbyItem fuel) fuel
      { rules with clause := text.take (longStringSize - 1) } text

/-- A blank rule is counted although nothing is written to the table. -/
def orderbyItem (rules : RuleList OrderbyRule) (token : Text) (_ : Text) :
    Move (RuleList OrderbyRule) :=
  let text := sbTrim token
  if rules.list.length > maxSortRule then .stop rules
  else if text = [] then
    .next { rules with list := rules.list ++ [⟨.unset, ⟨.docattr, []⟩⟩] }
  else if rules.list.length < maxSortRule then
    let name := sbTrim (upTo ' ' text)
    let type : OrderType :=
      if hasKeyword (sbTrim (behind ' ' text)) "DESC".toList then .desc else .asc
    .next { rules with
      list := rules.list ++ [⟨type, ⟨keyType (upTo ' ' text), name.take shortStringSize⟩⟩] }
  else .fault .tableEnd

def makeOrderbyRuleList (fuel : Nat) (rules : RuleList OrderbyRule) (clause : Text) :
    Option (Except Fault (RuleList OrderbyRule)) :=
  let text := sbTrim clause
  if text = [] then some (.ok rules)
  else
    tokens ',' orderbyItem fuel { rules with clause := text.take (longStringSize - 1) } text

/-- Why no request is made: the function fails with a message, or it leaves its
defined behaviour. -/
inductive Failure where
  | fail (message : Text)
  | fault (fault : Fault)
  deriving DecidableEq

def store {α β : Type} (put : α → β) (result : Option (Except Fault α)) :
    Option (Except Failure β) :=
  result.map fun found =>
    match found with
    | .ok value => .ok (put value)
    | .error fault => .error (.fault fault)

def unknownSymbol (clause : Text) : Failure :=
  .fail ("clause started by unknown symbol[".toList ++ clause ++ "]".toList)

def operationRule (config : Config) (fuel : Nat) (type : ClauseType) (clause : Text) :
    Option (Except Failure OperationRule) :=
  match type with
  | .where => some (.ok (.where (clause.take (longLongStringSize - 1))))
  | .groupBy | .countBy => store .groupby (makeGroupbyRuleList fuel ⟨[], []⟩ clause)
  | .orderBy => store .orderby (makeOrderbyRuleList fuel ⟨[], []⟩ clause)
  | .limit => some (.ok (.limit (makeLimitRule config.commentListSize clause)))
  | _ => some (.error (unknownSymbol clause))

/-- The line is written to the table before `add_operation` looks whether there is
room for it. -/
def addOperation (config : Config) (fuel : Nat) (list : List Operation) (line : Text)
    (type : ClauseType) (clause : Text) : Option (Except Failure (List Operation)) :=
  if list.length < maxOperation then
    (operationRule config fuel type clause).map
      (Except.map fun rule => list ++ [⟨type, line.take longStringSize, rule⟩])
  else some (.error (.fault .tableEnd))

def outputStyle (style : OutputStyle) (clause : Text) : OutputStyle :=
  let text := sbTrim clause
  if hasKeyword text "XML".toList then .xml
  else if hasKeyword text "SOFTBOT4".toList then .softbot4 else style

structure Parsing where
  request : Request
  didRuleStatus : Bool
  deriving DecidableEq

/-- The operation belongs to the documents between the parentheses of the rule of the
virtual ids, and to the virtual documents elsewhere. -/
def setOperation (config : Config) (fuel : Nat) (parsing : Parsing) (line : Text)
    (type : ClauseType) (clause : Text) : Option (Except Failure Parsing) :=
  let req := parsing.request
  if parsing.didRuleStatus then
    (addOperation config fuel req.opListDid line type clause).map
      (Except.map fun list => { parsing with request := { req with opListDid := list } })
  else
    (addOperation config fuel req.opListVid line type clause).map
      (Except.map fun list => { parsing with request := { req with opListVid := list } })

def setClause (config : Config) (fuel : Nat) (parsing : Parsing) (line : Text) :
    Option (Except Failure Parsing) :=
  let req := parsing.request
  match getClauseType line with
  | none =>
    some (.error (.fail
      ("clause started with unknown symbol[".toList ++ line ++ "]".toList)))
  | some (keyword, type) =>
    let clause := line.drop keyword.length
    match type with
    | .delete =>
      store (fun list => { parsing with
        request := { req with selectList := list, isDelete := true } })
        (setSelectClause fuel req.selectList clause)
    | .select =>
      store (fun list => { parsing with request := { req with selectList := list } })
        (setSelectClause fuel req.selectList clause)
    | .search =>
      some (.ok { parsing with
        request := { req with search := (sbTrim clause).take (maxQueryStringSize - 1) } })
    | .virtualId =>
      store (fun list => { parsing with request := { req with virtualRuleList := list } })
        (setVirtualId fuel req.virtualRuleList (some clause))
    | .weight =>
      store (fun list => { parsing with request := { req with weightList := list } })
        (setWeight config fuel req.weightList clause)
    | .where | .groupBy | .countBy | .orderBy | .limit =>
      setOperation config fuel parsing line type clause
    | .startDidRule => some (.ok { parsing with didRuleStatus := true })
    | .endDidRule => some (.ok { parsing with didRuleStatus := false })
    | .comment => some (.ok parsing)
    | .outputStyle =>
      some (.ok { parsing with
        request := { req with outputStyle := outputStyle req.outputStyle clause } })

/-- Lines end at a carriage return when there is one anywhere in what is left. -/
def newline (text : Text) : Char := if '\r' ∈ text then '\r' else '\n'

def nextLine (parsing : Parsing) (text : Text) :
    Round (Parsing × Text) (Except Failure Parsing) :=
  if newline text ∈ text then .again (parsing, behind (newline text) text)
  else .leave (.ok parsing)

def clauseRound (config : Config) (fuel : Nat) :
    Parsing × Text → Option (Round (Parsing × Text) (Except Failure Parsing))
  | (parsing, text) =>
    let text := sbTrim text
    if text = [] then some (.leave (.ok parsing))
    else
      let line := sbRightTrim (upTo (newline text) text)
      if sbTrim line = [] then some (nextLine parsing text)
      else
        match setClause config fuel parsing line with
        | none => none
        | some (.error failure) => some (.leave (.error failure))
        | some (.ok parsing) => some (nextLine parsing text)

def addDeleteWhere (list : List Operation) : List Operation :=
  if list.all (fun operation => operation.type ≠ .where) ∧ list.length < maxOperation then
    ⟨.where, "WHERE delete=0".toList, .where "delete=0".toList⟩ :: list
  else list

def finish (fuel : Nat) (req : Request) : Option (Except Failure Request) :=
  let addWhere (list : VirtualRuleList) : Request :=
    { req with virtualRuleList := list, opListDid := addDeleteWhere req.opListDid }
  if req.virtualRuleList.list = [] then
    store addWhere (setVirtualId fuel req.virtualRuleList none)
  else some (.ok (addWhere req.virtualRuleList))

/-- `none` is a function that has not returned after so many rounds of its loops. -/
def initRequest (config : Config) (fuel : Nat) (query : Option Text) :
    Option (Except Failure Request) :=
  match query with
  | none => some (.error (.fail "no query string".toList))
  | some query =>
    let text := sbTrim (cString query)
    let req := { Request.zero with query := text.take maxQueryStringSize }
    match run (clauseRound config fuel) fuel (⟨req, false⟩, text) with
    | none => none
    | some (.error failure) => some (.error failure)
    | some (.ok parsing) => finish fuel parsing.request

end Wisebot.Query
