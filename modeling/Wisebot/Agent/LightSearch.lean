import Mathlib.Algebra.Ring.Int.Defs
import Mathlib.Algebra.Ring.Nat

namespace Wisebot.Agent

/-! A light search over several nodes: `agent_lightsearch`
(`mod_httpd_handler/mod_agent_sbhandler.c`) asks every node for the first
documents of the query and filters, sorts and cuts what it has received. The
operations on virtual documents are those of `mod_qp/mod_qp2.c` without
`GROUP_BY` and `COUNT_BY`. Which documents a node finds before these operations
is given; the escaping of the query and the bytes of a response are left out. -/

def wrap32 (value : Int) : Int := (value + 2147483648) % 4294967296 - 2147483648

abbrev Text := List Char

def isBlank (char : Char) : Bool :=
  char = ' ' || char = '\n' || char = '\r' || char = '\t'

def sbTrim (text : Text) : Text :=
  ((text.dropWhile isBlank).reverse.dropWhile isBlank).reverse

def isSpace (char : Char) : Bool :=
  isBlank char || char = '\x0b' || char = '\x0c'

def readDigits : (value : Nat) → Text → Nat
  | value, [] => value
  | value, char :: text =>
    if char.isDigit then readDigits (10 * value + (char.toNat - '0'.toNat)) text else value

def atoi (text : Text) : Int :=
  match text.dropWhile isSpace with
  | '-' :: digits => wrap32 (-(readDigits 0 digits : Int))
  | '+' :: digits => wrap32 (readDigits 0 digits)
  | digits => wrap32 (readDigits 0 digits)

/-- What `%d` prints. -/
def printInt (value : Int) : Text :=
  if value < 0 then '-' :: Nat.toDigits 10 value.natAbs else Nat.toDigits 10 value.natAbs

structure Limit where
  start : Int
  cnt : Int
  deriving DecidableEq

def makeLimitRule (commentListSize : Int) (clause : Text) : Limit :=
  let clause := sbTrim clause
  if clause = [] then ⟨0, 0⟩
  else if clause.contains ',' then
    let start := atoi (clause.takeWhile (· ≠ ','))
    let cnt := atoi ((clause.dropWhile (· ≠ ',')).tail)
    ⟨if start < 0 then 0 else start, if cnt > commentListSize then commentListSize else cnt⟩
  else ⟨0, atoi clause⟩

inductive ClauseType where
  | select
  | delete
  | weight
  | search
  | virtualId
  | where
  | groupBy
  | orderBy
  | countBy
  | limit
  | startDidRule
  | endDidRule
  | comment
  | outputStyle
  deriving DecidableEq

def clauseTypes : List (Text × ClauseType) :=
  [("SELECT".toList, .select), ("DELETE".toList, .delete), ("WEIGHT".toList, .weight),
    ("SEARCH".toList, .search), ("VIRTUAL_ID".toList, .virtualId), ("WHERE".toList, .where),
    ("GROUP_BY".toList, .groupBy), ("ORDER_BY".toList, .orderBy), ("COUNT_BY".toList, .countBy),
    ("LIMIT".toList, .limit), ("(".toList, .startDidRule), (")".toList, .endDidRule),
    ("#".toList, .comment), ("OUTPUT_STYLE".toList, .outputStyle)]

/-- `strncasecmp` over the length of a keyword. -/
def hasKeyword (clause keyword : Text) : Bool :=
  (clause.take keyword.length).map Char.toLower = keyword.map Char.toLower

def getClauseType (clause : Text) : Option (Text × ClauseType) :=
  clauseTypes.find? fun entry => hasKeyword clause entry.1

inductive Rule where
  | where (expression : Text)
  | orderBy (rules : Text)
  | limit (limit : Limit)
  deriving DecidableEq

structure Operation where
  clause : Text
  rule : Rule
  deriving DecidableEq

variable {α : Type}

/-- `cbWhere` and `cbOrderby` are what the callbacks of the attribute module make
of the texts of the clauses; `α` is the type of the virtual documents. -/
structure Env (α : Type) where
  commentListSize : Nat
  maxDocHitsSize : Nat
  cbWhere : Text → α → Bool
  cbOrderby : Text → α → α → Int
  qsort2 : (α → α → Int) → List α → List α

/-- A line of a query as an operation; `none` for lines of other kinds. -/
def addOperation (env : Env α) (clause : Text) : Option Operation :=
  match getClauseType clause with
  | some (keyword, .where) => some ⟨clause, .where (clause.drop keyword.length)⟩
  | some (keyword, .orderBy) => some ⟨clause, .orderBy (clause.drop keyword.length)⟩
  | some (keyword, .limit) =>
    some ⟨clause, .limit (makeLimitRule env.commentListSize (clause.drop keyword.length))⟩
  | _ => none

def initRequest (env : Env α) (lines : List Text) : Option (List Operation) :=
  lines.mapM (addOperation env)

def getQueryString (operations : List Operation) : List Text := operations.map Operation.clause

def operationLimit (limit : Limit) (docs : List α) : List α :=
  (docs.drop limit.start.toNat).take limit.cnt.toNat

def operate (env : Env α) (docs : List α) (operation : Operation) : List α :=
  match operation.rule with
  | .where expression => docs.filter (env.cbWhere expression)
  | .orderBy rules => env.qsort2 (env.cbOrderby rules) docs
  | .limit limit => operationLimit limit docs

def doFilterOperation (env : Env α) (operations : List Operation) (docs : List α) : List α :=
  operations.foldl (operate env) docs

/-- What a node answers; `none` where it does not understand the query. -/
def lightSearch (env : Env α) (lines : List Text) (docs : List α) : Option (List α) :=
  (initRequest env lines).map fun operations => doFilterOperation env operations docs

inductive Ret where
  | success
  | fail
  deriving DecidableEq

/-- The loop over the documents of one response; `none` is a write behind the end
of the list. -/
def receive (env : Env α) : (vdl docs : List α) → Option (Ret × List α)
  | vdl, [] => some (.success, vdl)
  | vdl, doc :: docs =>
    if env.maxDocHitsSize < vdl.length then some (.fail, vdl)
    else if vdl.length = env.maxDocHitsSize then none
    else receive env (vdl ++ [doc]) docs

/-- The loop over the nodes. -/
def receiveAll (env : Env α) (query : List Text) :
    (vdl : List α) → (nodes : List (List α)) → Option (Ret × List α)
  | vdl, [] => some (.success, vdl)
  | vdl, node :: nodes =>
    match lightSearch env query node with
    | none => receiveAll env query vdl nodes
    | some docs =>
      match receive env vdl docs with
      | some (.success, vdl) => receiveAll env query vdl nodes
      | failed => failed

def limitClause (start cnt : Int) : Text :=
  "LIMIT ".toList ++ printInt start ++ ", ".toList ++ printInt cnt

def askedLimit (limit : Limit) : Operation :=
  ⟨limitClause 0 (wrap32 (limit.start + limit.cnt)), .limit ⟨0, wrap32 (limit.start + limit.cnt)⟩⟩

/-- The return value and the documents left in `res->vdl`. -/
def agentLightsearch (env : Env α) (operations : List Operation) (nodes : List (List α)) :
    Option (Ret × List α) :=
  match operations.getLast? with
  | some ⟨_, .limit limit⟩ =>
    match receiveAll env (getQueryString (operations.dropLast ++ [askedLimit limit])) [] nodes with
    | some (.success, vdl) => some (.success, doFilterOperation env operations vdl)
    | failed => failed
  | _ => some (.fail, [])

end Wisebot.Agent
