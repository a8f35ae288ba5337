import Mathlib.Algebra.Ring.Int.Defs
import Mathlib.Order.Basic
import Mathlib.Algebra.Ring.Nat

namespace Wisebot.Tokenizer

/-! The tokens of a query (`mod_qpp/tokenizer.c`). What a pointer into the query
points to is the text from there to the end of the string. Log messages are left
out, and so is the list of useless characters, which nothing ever sets. -/

abbrev Text := List UInt8

/-- The character at an index, which is null behind the end. -/
def charAt (src : Text) (index : Nat) : UInt8 := src.getD index 0

def isDigit (char : UInt8) : Bool := 48 ≤ char ∧ char ≤ 57

def isUselessChar (char : UInt8) : Bool := char = 32 ∨ char = 9

/-- `%` -/
def isEscapeChar (char : UInt8) : Bool := char = 37

/-- `[` and `]` -/
def opNaturalBegin : UInt8 := 91

def opNaturalEnd : UInt8 := 93

/-- `(` and `)` -/
def opBeginParen : UInt8 := 40

def opEndParen : UInt8 := 41

/-- `m_aStopChars` with `m_numStopChars`. -/
structure StopChars where
  chars : Vector UInt8 256
  num : Nat

/-- `|:"()*`, which are six characters. -/
def defaultStopChars : List UInt8 := [124, 58, 34, 40, 41, 42]

def StopChars.initial : StopChars where
  chars := Vector.ofFn fun index => defaultStopChars.getD index 0
  num := 8

/-- `none` is a write behind the list. -/
def addStopChar (list : StopChars) (char : UInt8) : Option StopChars :=
  if free : list.num < 256 then
    let chars := list.chars.set list.num char
    if last : list.num + 1 < 256 then
      some ⟨chars.set (list.num + 1) 0, list.num + 1⟩
    else none
  else some list

def StopChars.text (list : StopChars) : Text := list.chars.toList.takeWhile (· ≠ 0)

structure Config where
  opAND : List Text
  opOR : List Text
  opNOT : List Text
  opPARA : List Text
  opWITHIN : List Text
  opFUZZY : List Text
  opFIELD : List Text
  opSTAR : List Text
  fieldName : List Text
  virtualFieldName : List Text
  virtualFieldIds : Nat → UInt32
  opBeginPhrase : UInt8
  opEndPhrase : UInt8
  isPhraseOperatorSame : Bool
  stopChars : StopChars

def paraDefaultParam : Int := 1

inductive Operator where
  | operand
  | and
  | or
  | not
  | para
  | within
  | fuzzy
  | field
  | virtualField
  | star
  | begPhrase
  | endPhrase
  | begParen
  | endParen
  | naturalBegin
  | naturalEnd
  deriving DecidableEq

def starBegin : Int := 1

def starEnd : Int := 2

/-- A parameter is a number, the id of a field or the mask of a virtual field. -/
structure TokenObj where
  inputStr : Text
  idx : Nat
  currentOperator : Operator
  currentNumOperand : Nat
  currentOpLen : Nat
  currentOpParam : Int
  lastOperator : Operator
  starStrBuffer : Text
  isBeginPhraseTurn : Bool
  isPositionWithinPhrase : Bool
  deriving DecidableEq

def TokenObj.src (tkObj : TokenObj) : Text := tkObj.inputStr.drop tkObj.idx

structure QueryNode where
  operator : Operator
  numOfOperands : Nat
  opParam : Int
  originalWord : Text
  deriving DecidableEq

variable (config : Config) (tkObj : TokenObj)

def isStopChar (char : UInt8) : Bool :=
  if tkObj.isPositionWithinPhrase then false
  else
    char = opBeginParen ∨ char = opEndParen ∨ char = config.opBeginPhrase ∨
      char = config.opEndPhrase ∨ char = opNaturalBegin ∨ char = opNaturalEnd ∨
      char ∈ config.stopChars.text

def isPhraseEndChar (char : UInt8) : Bool := char = config.opEndPhrase

def isAlphaNumericOperator (opStr : Text) : Bool :=
  let first := charAt opStr 0
  !(33 ≤ first ∧ first ≤ 47) && !(58 ≤ first ∧ first ≤ 64) && !(91 ≤ first ∧ first ≤ 96) &&
    !(123 ≤ first ∧ first ≤ 126)

/-- The number of characters compared so far, or zero where there is a difference. -/
def prefixFrom : (index : Nat) → (src cmpStr : Text) → Nat
  | index, _, [] => index
  | _, [], _ :: _ => 0
  | index, char :: src, other :: cmpStr =>
    if char = other then prefixFrom (index + 1) src cmpStr else 0

def prefixCmp (src cmpStr : Text) : Nat := prefixFrom 0 src cmpStr

def isNumParamFollowing (theString : Text) : Bool :=
  charAt theString 0 ≠ 0 && (isDigit (charAt theString 0) || isDigit (charAt theString 1))

def operatornCmp (src opcodeStr : Text) (isParamFollowing : Bool) : Nat :=
  let len := prefixCmp src opcodeStr
  if len = 0 then 0
  else if isAlphaNumericOperator opcodeStr = false then len
  else if isUselessChar (charAt src len) then len
  else if charAt src len = 0 then len
  else if isStopChar config tkObj (charAt src len) then len
  else if isParamFollowing = false then 0
  else if isNumParamFollowing (src.drop len) then len
  else 0

def firstOperator (src : Text) (isParamFollowing : Bool) : List Text → Nat
  | [] => 0
  | opcodeStr :: rest =>
    let opLen := operatornCmp config tkObj src opcodeStr isParamFollowing
    if opLen > 0 then opLen else firstOperator src isParamFollowing rest

/-- What the loop variables of `virtualfieldOpCmp` hold when it is left. -/
def virtualfieldLoop (src : Text) : (i paramLen opLen : Nat) → List Text → Nat × Nat × Nat
  | i, paramLen, opLen, [] => (i, paramLen, opLen)
  | i, _, opLen, name :: rest =>
    let paramLen := prefixCmp src name
    if paramLen = 0 then virtualfieldLoop src (i + 1) paramLen opLen rest
    else
      let opLen := firstOperator config tkObj (src.drop paramLen) false config.opFIELD
      if opLen ≠ 0 then (i, paramLen, opLen)
      else virtualfieldLoop src (i + 1) paramLen opLen rest

/-- A mask as an `int32_t`. -/
def maskParam (mask : UInt32) : Int := (mask.toNat : Int).bmod 4294967296

def virtualfieldOpCmp (src : Text) : Option (Nat × Int) :=
  match virtualfieldLoop config tkObj src 0 0 0 config.virtualFieldName with
  | (i, paramLen, opLen) =>
    if paramLen = 0 then none else some (paramLen + opLen, maskParam (config.virtualFieldIds i))

/-- ASCII letters as `strncasecmp` compares them. -/
def toLower (char : UInt8) : UInt8 := if 65 ≤ char ∧ char ≤ 90 then char + 32 else char

/-- `strncasecmp` over the length of a name. -/
def startsWithName (src name : Text) : Bool :=
  (src.take name.length).map toLower = name.map toLower

def fieldLoop (src : Text) : (i : Nat) → List Text → Option (Nat × Int)
  | _, [] => none
  | i, name :: rest =>
    if name = [] then fieldLoop src (i + 1) rest
    else if startsWithName src name = false then fieldLoop src (i + 1) rest
    else
      let opLen := firstOperator config tkObj (src.drop name.length) false config.opFIELD
      if opLen ≠ 0 then some (name.length + opLen, i) else fieldLoop src (i + 1) rest

def fieldOpCmp (src : Text) : Option (Nat × Int) := fieldLoop config tkObj src 0 config.fieldName

/-- Whether a function has found its operator; it may write behind the buffer of a
number. -/
inductive Match where
  | no
  | yes (tkObj : TokenObj)
  | overrun

def TokenObj.found (operator : Operator) (opLen numOperand : Nat) (opParam : Int) : TokenObj :=
  { tkObj with
    currentOperator := operator
    currentOpLen := opLen
    currentNumOperand := numOperand
    currentOpParam := opParam }

def isOpPlain (operators : List Text) (operator : Operator) (numOperand : Nat) : Match :=
  let opLen := firstOperator config tkObj tkObj.src false operators
  if opLen > 0 then .yes (tkObj.found operator opLen numOperand 0) else .no

def isOpAND : Match := isOpPlain config tkObj config.opAND .and 2

def isOpOR : Match := isOpPlain config tkObj config.opOR .or 2

def isOpNOT : Match := isOpPlain config tkObj config.opNOT .not 1

def isOpFUZZY : Match := isOpPlain config tkObj config.opFUZZY .fuzzy 2

/-- `sizeof(strNum)` -/
def numSize : Nat := 256

def readNumber (digits : Text) : Int :=
  ((digits.foldl (fun number digit => 10 * number + (digit.toNat - 48)) 0 : Nat) : Int).bmod
    4294967296

/-- The digits that `getParameter` copies, and the number of characters before them. -/
def parameterDigits (theString : Text) : Nat × Text :=
  if isDigit (charAt theString 0) then (0, theString.takeWhile isDigit)
  else (1, (theString.drop 1).takeWhile isDigit)

/-- The length of a parameter and its number, which is zero when there is none;
`none` is a write behind `strNum`. -/
def getParameter (theString : Text) : Option (Nat × Int) :=
  if isNumParamFollowing theString = false then some (0, 0)
  else
    let (startIdx, digits) := parameterDigits theString
    if digits.length < numSize then some (startIdx + digits.length, readNumber digits) else none

def isOpPARA : Match :=
  let opLen := firstOperator config tkObj tkObj.src true config.opPARA
  if opLen > 0 then
    match getParameter (tkObj.src.drop opLen) with
    | none => .overrun
    | some (paramLen, opParam) =>
      .yes (tkObj.found .para (opLen + paramLen) 2
        (if opParam = 0 then paraDefaultParam else opParam))
  else .no

/-- `/` -/
def slash : UInt8 := 47

def isOpWITHIN : Match :=
  let opLen := firstOperator config tkObj tkObj.src true config.opWITHIN
  if opLen > 0 then
    match getParameter (tkObj.src.drop opLen) with
    | none => .overrun
    | some (paramLen, opParam) =>
      if paramLen = 0 then .no
      else if charAt tkObj.src (opLen + paramLen) ≠ slash then .no
      else .yes (tkObj.found .within (opLen + paramLen + 1) 2 opParam)
  else .no

def isOpFIELD : Match :=
  match fieldOpCmp config tkObj tkObj.src with
  | none => .no
  | some (opLen, opParam) => .yes (tkObj.found .field opLen 1 opParam)

def isOpVirtualFIELD : Match :=
  match virtualfieldOpCmp config tkObj tkObj.src with
  | none => .no
  | some (opLen, opParam) => .yes (tkObj.found .virtualField opLen 1 opParam)

/-- A character that ends a token. -/
def isTokenEnd (char : UInt8) : Bool :=
  isPhraseEndChar config char || isStopChar config tkObj char || isUselessChar char || char = 0

def getNextTokenLength (offset : Nat) : Nat :=
  ((tkObj.src.drop offset).takeWhile fun char => !isTokenEnd config tkObj char).length

/-- The first operator of a list that the text begins with, by its length. -/
def firstPrefix (src : Text) : List Text → Nat
  | [] => 0
  | opStr :: rest => if prefixCmp src opStr > 0 then prefixCmp src opStr else firstPrefix src rest

def starBehind : Text → Option Nat
  | [] => none
  | char :: src =>
    if isUselessChar char then none
    else if firstPrefix (char :: src) config.opSTAR > 0 then
      some (firstPrefix (char :: src) config.opSTAR)
    else if isStopChar config tkObj char then none
    else starBehind src

/-- `MAX_INPUTSTR_LEN` -/
def maxInputstrLen : Nat := 512

/-- What is copied to a buffer of so many bytes with the null character behind it;
`none` is a write behind it. -/
def copied (size : Nat) (chars : Text) : Option Text :=
  if chars.length < size then some chars else none

def TokenObj.star (offset length opLen : Nat) (opParam : Int) : Match :=
  match copied maxInputstrLen ((tkObj.src.drop offset).take length) with
  | none => .overrun
  | some token =>
    .yes { tkObj.found .star (length + opLen) 1 opParam with starStrBuffer := token }

def isOpSTAR : Match :=
  let opLen := firstPrefix tkObj.src config.opSTAR
  if opLen > 0 then
    tkObj.star opLen (getNextTokenLength config tkObj opLen) opLen starBegin
  else
    match starBehind config tkObj tkObj.src with
    | none => .no
    | some opLen => tkObj.star 0 (getNextTokenLength config tkObj 0) opLen starEnd

/-- An operator of one character; what it does not set keeps its last value. -/
def TokenObj.single (operator : Operator) : TokenObj :=
  { tkObj with currentOperator := operator, currentOpLen := 1 }

def isNaturalBegin : Match :=
  if charAt tkObj.src 0 = opNaturalBegin then .yes (tkObj.single .naturalBegin) else .no

def isNaturalEnd : Match :=
  if charAt tkObj.src 0 = opNaturalEnd then .yes (tkObj.single .naturalEnd) else .no

def isOpBEGIN_PAREN : Match :=
  if charAt tkObj.src 0 = opBeginParen then .yes (tkObj.single .begParen) else .no

def isOpEND_PAREN : Match :=
  if charAt tkObj.src 0 = opEndParen then .yes (tkObj.single .endParen) else .no

def isOpBEGIN_PHRASE : Match :=
  if charAt tkObj.src 0 ≠ config.opBeginPhrase then .no
  else if config.isPhraseOperatorSame = false then
    .yes { tkObj.single .begPhrase with isPositionWithinPhrase := true }
  else if tkObj.isBeginPhraseTurn then
    .yes { tkObj.single .begPhrase with
      isPositionWithinPhrase := true, isBeginPhraseTurn := false }
  else .no

def isOpEND_PHRASE : Match :=
  if charAt tkObj.src 0 ≠ config.opEndPhrase then .no
  else if config.isPhraseOperatorSame = false then
    .yes { tkObj.single .endPhrase with isPositionWithinPhrase := false }
  else if tkObj.isBeginPhraseTurn = false then
    .yes { tkObj.single .endPhrase with
      isPositionWithinPhrase := false, isBeginPhraseTurn := true }
  else .no

def eachOperator : List (Config → TokenObj → Match) :=
  [isOpAND, isOpOR, isOpNOT, isOpPARA, isOpWITHIN, isOpFUZZY, isOpFIELD, isOpVirtualFIELD,
    isOpSTAR, isOpBEGIN_PHRASE, isOpEND_PHRASE, fun _ => isOpBEGIN_PAREN,
    fun _ => isOpEND_PAREN, fun _ => isNaturalBegin, fun _ => isNaturalEnd]

def firstMatch : List (Config → TokenObj → Match) → Match
  | [] => .no
  | isOp :: rest =>
    match isOp config tkObj with
    | .no => firstMatch rest
    | found => found

/-- Only the end of a phrase is looked for inside it. -/
def isOperator : Match :=
  if tkObj.isPositionWithinPhrase then isOpEND_PHRASE config tkObj
  else firstMatch config tkObj eachOperator

def skipUselessChars : TokenObj :=
  { tkObj with idx := tkObj.idx + (tkObj.src.takeWhile isUselessChar).length }

/-- `MAX_TMP_STR` -/
def maxTmpStr : Nat := 512

def maxOriginalWordLen : Nat := 1024

/-- The characters written for a text up to its end, numbers behind `%` as the
characters that they stand for; `none` is a write behind `strNum`. -/
def copyTranslateEscChar : (fuel : Nat) → Text → Option Text
  | 0, _ => some []
  | _, [] => some []
  | fuel + 1, char :: rest =>
    if isEscapeChar char then
      match getParameter (char :: rest) with
      | none => none
      | some (specialCharLen, tmpNum) =>
        if specialCharLen = 0 then (copyTranslateEscChar fuel rest).map (char :: ·)
        else
          (copyTranslateEscChar fuel ((char :: rest).drop specialCharLen)).map
            ((tmpNum % 256).toNat.toUInt8 :: ·)
    else (copyTranslateEscChar fuel rest).map (char :: ·)

def cString (chars : Text) : Text := chars.takeWhile (· ≠ 0)

inductive Token where
  | endOfString
  | operator (node : QueryNode)
  | star (node : QueryNode)
  | overflow
  | word (length : Nat) (node : QueryNode)
  deriving DecidableEq

def operatorProcess (node : QueryNode) : TokenObj × QueryNode :=
  ({ tkObj with idx := tkObj.idx + tkObj.currentOpLen },
    { node with
      operator := tkObj.currentOperator
      numOfOperands := tkObj.currentNumOperand
      opParam := tkObj.currentOpParam })

/-- The characters of a text that has been decoded, in a buffer of so many bytes. -/
def translated (size : Nat) (chars : Text) : Option Text :=
  match copyTranslateEscChar chars.length chars with
  | none => none
  | some written => (copied size written).map cString

def operatorToken (node : QueryNode) (maxLen : Nat) : Option (Token × TokenObj) :=
  let (tkObj, node) := operatorProcess tkObj node
  let tkObj := skipUselessChars { tkObj with lastOperator := tkObj.currentOperator }
  if tkObj.currentOperator ≠ .star then some (.operator node, tkObj)
  else if tkObj.starStrBuffer.length ≥ maxLen then some (.overflow, tkObj)
  else
    (translated (maxOriginalWordLen + 1)
      (tkObj.starStrBuffer.take (min maxLen maxTmpStr - 1))).map fun word =>
        (.star { node with originalWord := word }, tkObj)

/-- What follows when there is none. -/
def wordToken (node : QueryNode) (maxLen : Nat) : Option (Token × TokenObj) :=
  let length := getNextTokenLength config tkObj 0
  if length = 0 ∧ length < maxLen then
    some (.word 0 node, { tkObj with idx := tkObj.idx + 1 })
  else if maxLen > maxOriginalWordLen + 1 then none
  else
    match copied (maxTmpStr + 1)
        (tkObj.src.take (if length ≥ maxLen then maxTmpStr else length)) with
    | none => none
    | some token =>
      match translated (maxTmpStr + 1) token with
      | none => none
      | some word =>
        let word := word.take (maxLen - 1)
        some (.word word.length { node with originalWord := word },
          { tkObj with idx := tkObj.idx + length, lastOperator := .operand })

/-- `none` is a write behind one of the buffers. -/
def tkGetNextToken (node : QueryNode) (maxLen : Nat) : Option (Token × TokenObj) :=
  let tkObj := skipUselessChars tkObj
  if charAt tkObj.src 0 = 0 then some (.endOfString, tkObj)
  else
    match isOperator config tkObj with
    | .overrun => none
    | .yes found => operatorToken found node maxLen
    | .no => wordToken config tkObj node maxLen

/-- What `pairMatchingProcess` counts. -/
structure Pairs where
  numBeginParen : Nat
  numEndParen : Nat
  numBeginPhrase : Nat
  numEndPhrase : Nat
  numNaturalBegin : Nat
  numNaturalEnd : Nat
  isParenMatchSuccess : Bool
  isPhraseMatchSuccess : Bool

/-- One of two operators, and which of them; what the functions set is kept. -/
def whichOf (tkObj : TokenObj) (first second : TokenObj → Match) : TokenObj × Nat × Nat :=
  match first tkObj with
  | .yes found => (found, 1, 0)
  | _ =>
    match second tkObj with
    | .yes found => (found, 0, 1)
    | _ => (tkObj, 0, 0)

def pairStep (tkObj : TokenObj) (pairs : Pairs) : TokenObj × Pairs :=
  let phrase := whichOf tkObj (isOpBEGIN_PHRASE config) (isOpEND_PHRASE config)
  let natural := whichOf phrase.1 isNaturalBegin isNaturalEnd
  let paren := whichOf natural.1 isOpBEGIN_PAREN isOpEND_PAREN
  let pairs := { pairs with
    numBeginPhrase := pairs.numBeginPhrase + phrase.2.1
    numEndPhrase := pairs.numEndPhrase + phrase.2.2
    numNaturalBegin := pairs.numNaturalBegin + natural.2.1
    numNaturalEnd := pairs.numNaturalEnd + natural.2.2
    numBeginParen := pairs.numBeginParen + paren.2.1
    numEndParen := pairs.numEndParen + paren.2.2 }
  (paren.1, { pairs with
    isParenMatchSuccess :=
      pairs.isParenMatchSuccess && pairs.numEndParen ≤ pairs.numBeginParen
    isPhraseMatchSuccess :=
      pairs.isPhraseMatchSuccess && pairs.numEndPhrase ≤ pairs.numBeginPhrase })

def pairLoop : (count : Nat) → TokenObj → Pairs → TokenObj × Pairs
  | 0, tkObj, pairs => (tkObj, pairs)
  | count + 1, tkObj, pairs =>
    let (tkObj, pairs) := pairStep config tkObj pairs
    pairLoop count { tkObj with idx := tkObj.idx + 1 } pairs

def blank (first second : UInt8) (inputStr : Text) : Text :=
  inputStr.map fun char => if char = first ∨ char = second then 32 else char

def pairMatchingProcess : TokenObj :=
  let tkObj := { tkObj with isBeginPhraseTurn := true, isPositionWithinPhrase := false, idx := 0 }
  let (tkObj, pairs) := pairLoop config tkObj.inputStr.length tkObj ⟨0, 0, 0, 0, 0, 0, true, true⟩
  let isPhraseMatchSuccess :=
    pairs.isPhraseMatchSuccess && pairs.numBeginPhrase = pairs.numEndPhrase
  let isParenMatchSuccess := pairs.isParenMatchSuccess && pairs.numBeginParen = pairs.numEndParen
  let inputStr := tkObj.inputStr
  let inputStr :=
    if pairs.numNaturalBegin ≠ pairs.numNaturalEnd then
      blank opNaturalBegin opNaturalEnd inputStr else inputStr
  let inputStr :=
    if isPhraseMatchSuccess = false then
      blank config.opBeginPhrase config.opEndPhrase inputStr else inputStr
  let inputStr :=
    if isParenMatchSuccess = false then blank opBeginParen opEndParen inputStr else inputStr
  { tkObj with inputStr := inputStr, idx := 0 }

def tkSetString (theString : Text) : TokenObj :=
  let tkObj := { tkObj with inputStr := (cString theString).take (maxInputstrLen - 1), idx := 0 }
  let tkObj := pairMatchingProcess config tkObj
  skipUselessChars { tkObj with
    isBeginPhraseTurn := true, isPositionWithinPhrase := false, lastOperator := .operand }

end Wisebot.Tokenizer
