import Mathlib.Algebra.Ring.Int.Defs
import Mathlib.Order.Basic
import Mathlib.Algebra.Ring.Nat

namespace Wisebot.Qpp

/-! The query that the analyzer returns for a word, `mod_qpp/daum_qpp.c`: its
tokens become a tree, and the tree the nodes of the postfix stack. Log messages
and the release of memory are left out. -/

abbrev Text := List UInt8

inductive DaumOp
  | none
  | or
  | and
  | lparen
  | rparen
  deriving DecidableEq, Repr

/-- The numbers of `enum daum_op`, by which operators are compared. -/
def DaumOp.value : DaumOp → Nat
  | .none => 0
  | .or => 10
  | .and => 20
  | .lparen => 99
  | .rparen => 1

inductive DaumTree
  | word (word : Text)
  | operator (op : DaumOp) (left right : DaumTree)
  deriving DecidableEq, Repr

/-- The operator that a token is, if it is one character: `&`, `|`, `(` or `{`, and
`)` or `}`. -/
def daumOp : Text → DaumOp
  | [char] =>
    if char = 38 then .and
    else if char = 124 then .or
    else if char = 40 ∨ char = 123 then .lparen
    else if char = 41 ∨ char = 125 then .rparen
    else .none
  | _ => .none

/-! ### `parse_daum_query` -/

def operandStackSize : Nat := 64

def operatorStackSize : Nat := 32

/-- Both stacks, their tops first. -/
structure Stacks where
  operands : List DaumTree
  operators : List DaumOp
  deriving DecidableEq, Repr

/-- `pop_stack` with the operator that it takes: all of its callers see one on the
stack before. -/
def popStack (operands : List DaumTree) (operator : DaumOp) : Option (List DaumTree) :=
  match operands with
  | operand1 :: operand2 :: operands =>
    if operator = .lparen then none
    else some (.operator operator operand2 operand1 :: operands)
  | _ => none

/-- The loops that apply operators down to an opening parenthesis, or to the first
one that is to stay. -/
def popWhile (isPopped : DaumOp → Bool) (operands : List DaumTree) :
    List DaumOp → Option Stacks
  | [] => some ⟨operands, []⟩
  | operator :: operators =>
    if operator ≠ .lparen ∧ isPopped operator = true then
      (popStack operands operator).bind fun operands => popWhile isPopped operands operators
    else some ⟨operands, operator :: operators⟩

/-- One token. -/
def readToken (state : Stacks) (word : Text) : Option Stacks :=
  if word = [] then some state
  else
    match daumOp word with
    | .none =>
      if operandStackSize ≤ state.operands.length then none
      else some { state with operands := .word word :: state.operands }
    | .rparen =>
      (popWhile (fun _ => true) state.operands state.operators).bind fun state =>
        match state.operators with
        | [] => none
        | _ :: operators => some { state with operators }
    | op =>
      (popWhile (fun top => op.value ≤ top.value) state.operands state.operators).bind
        fun state =>
          if operatorStackSize ≤ state.operators.length then none
          else some { state with operators := op :: state.operators }

/-- The loop behind the last token. -/
def popAll (operands : List DaumTree) : List DaumOp → Option (List DaumTree)
  | [] => some operands
  | operator :: operators =>
    (popStack operands operator).bind fun operands => popAll operands operators

def parseTokens (state : Stacks) (words : List Text) : Option DaumTree :=
  (words.foldlM readToken state).bind fun state =>
    (popAll state.operands state.operators).bind fun operands =>
      match operands with
      | [tree] => some tree
      | _ => none

/-- `none` is `NULL`. -/
def parseDaumQuery (indexwords : List Text) : Option DaumTree := parseTokens ⟨[], []⟩ indexwords

/-! ### `push_daum_tree` -/

inductive Operator
  | and
  | or
  deriving DecidableEq, Repr

structure Word where
  string : Text
  id : UInt32
  deriving DecidableEq, Repr

/-- A node of the postfix stack, without the members that the tree leaves unset. -/
inductive QueryNode
  | operand (field : BitVec 32) (opParam : Int) (weight : Nat) (word : Word)
  | operator (operator : Operator) (numOfOperands : Nat)
  deriving DecidableEq, Repr

/-- Fields and the word database, which does not change; `getWord` is
`sb_run_get_word`: what it returns, and the word as it leaves it. -/
structure Config where
  defaultSearchField : BitVec 32
  defaultPhraseField : BitVec 32
  fieldName : List Text
  getWord : Text → Int × Word

/-- The members of `StateObj` that the tree is pushed with; the top of the postfix
stack first. -/
structure StateObj where
  postfixStack : List QueryNode
  searchField : Int
  posWithinPhrase : Bool
  truncated : Bool
  virtualfield : BitVec 32
  naturalSearch : Bool
  deriving DecidableEq, Repr

def success : Int := 1

def fail : Int := -1

def stackOverflow : Int := -1

def maxStackLen : Nat := 512

def maxWordLen : Nat := 40

def wordNotRegistered : Int := -11

def fakeOpParam : Int := -10

def makeUpperLetter (string : Text) : Text :=
  string.map fun char => if 97 ≤ char ∧ char ≤ 122 then char - 32 else char

def stkPush (pStObj : StateObj) (qnode : QueryNode) : Int × StateObj :=
  if maxStackLen ≤ pStObj.postfixStack.length then (stackOverflow, pStObj)
  else (success, { pStObj with postfixStack := qnode :: pStObj.postfixStack })

/-- `1L << field` -/
def fieldBit (field : Nat) : BitVec 32 := 1 <<< field

/-- The field of a word in a phrase: the last `B_` field of the same name, if there
is one. -/
def bigramField (config : Config) (field : Nat) : BitVec 32 :=
  match config.fieldName.zipIdx.reverse.find? fun named =>
      named.2 ≠ field ∧ ([66, 95] ++ config.fieldName.getD field []).isPrefixOf named.1 with
  | some named => fieldBit named.2
  | none => fieldBit field

/-- The field that `pushOperand` gives a word. -/
def operandField (config : Config) (pStObj : StateObj) : BitVec 32 :=
  if pStObj.virtualfield ≠ 0 then pStObj.virtualfield
  else if pStObj.searchField = -1 then
    if pStObj.posWithinPhrase then config.defaultPhraseField else config.defaultSearchField
  else
    let field := pStObj.searchField.toNat
    if pStObj.posWithinPhrase ∧ config.defaultSearchField &&& fieldBit field ≠ 0 then
      bigramField config field
    else fieldBit field

/-- The node that `pushOperand` makes of a word. -/
def operandNode (config : Config) (pStObj : StateObj) (string : Text) : QueryNode :=
  let (ret, word) := config.getWord (makeUpperLetter string)
  let opParam :=
    if pStObj.naturalSearch ∧ ret = wordNotRegistered then fakeOpParam else pStObj.searchField
  let word :=
    if ret = wordNotRegistered then { word with id := 0 }
    else if ret < 0 then ⟨[], 0⟩
    else word
  .operand (operandField config pStObj) opParam 1 word

def pushOperand (config : Config) (pStObj : StateObj) (string : Text) : Int × StateObj :=
  let truncated :=
    if pStObj.searchField = -1 ∧ !pStObj.posWithinPhrase then false else pStObj.truncated
  stkPush { pStObj with truncated } (operandNode config pStObj string)

def qppOperator : DaumOp → Option Operator
  | .and => some .and
  | .or => some .or
  | _ => none

def pushDaumTree (config : Config) (pStObj : StateObj) : DaumTree → Int × StateObj
  | .word word => pushOperand config pStObj (word.take (maxWordLen - 1))
  | .operator op left right =>
    let (ret, pStObj) := pushDaumTree config pStObj left
    if ret ≠ success then (fail, pStObj)
    else
      let (ret, pStObj) := pushDaumTree config pStObj right
      if ret ≠ success then (fail, pStObj)
      else
        match qppOperator op with
        | none => (fail, pStObj)
        | some operator => stkPush pStObj (.operator operator 2)

end Wisebot.Qpp
