import Mathlib.Order.Basic
import Mathlib.Algebra.Ring.Nat

namespace Wisebot.Highlight

/-! `highlight` (`mod_qp/mod_qp2.c`): the text of a field is cut into eojeols at
separators of one and two bytes, and the words of the search are put between tags in
each of them. A byte carries whether it was put in as part of a tag, which the
program does not see. Log messages are left out; memory files are their contents. -/

structure Letter where
  byte : UInt8
  inserted : Bool
  deriving DecidableEq

def plain (text : List UInt8) : List Letter := text.map fun byte => ⟨byte, false⟩

def tag (text : List UInt8) : List Letter := text.map fun byte => ⟨byte, true⟩

def bytes (letters : List Letter) : List UInt8 := letters.map Letter.byte

def erase (letters : List Letter) : List UInt8 :=
  (letters.filter fun letter => !letter.inserted).map Letter.byte

/-- `tolowerh` -/
def tolowerh (byte : UInt8) : UInt8 := if 65 ≤ byte ∧ byte ≤ 90 then byte + 32 else byte

/-- The place of the first occurrence of a word, where bytes are compared as `fold`
leaves them. -/
def find (fold : UInt8 → UInt8) (word : List UInt8) : List Letter → Option Nat
  | [] => if word = [] then some 0 else none
  | letter :: rest =>
    if ((bytes (letter :: rest)).take word.length).map fold = word.map fold then some 0
    else (find fold word rest).map (· + 1)

def strstr (word : List UInt8) (str : List Letter) : Option Nat := find id word str

def strcasestrh (word : List UInt8) (str : List Letter) : Option Nat := find tolowerh word str

/-- `STRING_SIZE` -/
def stringSize : Nat := 256

inductive HighlightUnit where
  | eojeol
  | word
  deriving DecidableEq

/-- The settings; `isalpha` is the one of the locale and `before` the byte that
stands in memory before the buffer of an eojeol. -/
structure Env where
  unit : HighlightUnit
  preTag : List UInt8
  postTag : List UInt8
  seps1 : List UInt8
  seps2 : List UInt8
  isalpha : UInt8 → Bool
  before : UInt8

variable (env : Env)

/-- What is built up in a buffer of `STRING_SIZE` bytes; `none` is a write behind its
end. -/
def buffered (str : List Letter) : Option (List Letter) :=
  if str.length < stringSize then some str else none

def highlightStringByEojeol (words : List (List UInt8)) (str : List Letter) :
    Option (List Letter) :=
  if words.any fun word => (strstr word str).isSome then
    buffered (tag env.preTag ++ str ++ tag env.postTag)
  else some str

/-- A word of one letter that stands next to a letter is passed over. -/
def isPassedOver (word : List UInt8) (str : List Letter) (pos : Nat) : Bool :=
  word.length = 1 &&
    (env.isalpha (if pos = 0 then env.before else (bytes str).getD (pos - 1) 0) ||
      env.isalpha ((bytes str).getD (pos + 1) 0))

/-- The bytes of the word stand where those of the text have been. -/
def respell (word : List UInt8) (letters : List Letter) : List Letter :=
  List.zipWith (fun letter byte => { letter with byte := byte }) letters word

def highlightWord (word : List UInt8) (str : List Letter) : Option (List Letter) :=
  match strcasestrh word str with
  | none => some str
  | some pos =>
    if isPassedOver env word str pos then some str
    else
      buffered (str.take pos ++ tag env.preTag ++ respell word (str.drop pos) ++
        tag env.postTag ++ str.drop (pos + word.length))

def highlightStringByWord : (words : List (List UInt8)) → List Letter → Option (List Letter)
  | [], str => some str
  | word :: words, str =>
    match highlightWord env word str with
    | none => none
    | some str => highlightStringByWord words str

/-- An eojeol is cut to the size of its buffer before it is looked at. -/
def highlightEojeol (words : List (List UInt8)) (eojeol : List UInt8) : Option (List Letter) :=
  let str := plain (eojeol.take (stringSize - 1))
  match env.unit with
  | .word => highlightStringByWord env words str
  | .eojeol => highlightStringByEojeol env words str

/-- The separators of two bytes; a single byte at the end stands with the null
character behind it. -/
def pairs : List UInt8 → List (UInt8 × UInt8)
  | [] => []
  | [byte] => [(byte, 0)]
  | first :: second :: rest => (first, second) :: pairs rest

/-- The eojeols of a text, each with the separator behind it, which is empty at the
end; `none` is a step behind the end of the text. -/
def cutFrom : (eojeol : List UInt8) → List UInt8 → Option (List (List UInt8 × List UInt8))
  | eojeol, [] => some [(eojeol, [])]
  | eojeol, [byte] =>
    if byte ∈ env.seps1 then some [(eojeol, [byte]), ([], [])]
    else if (byte, 0) ∈ pairs env.seps2 then none
    else some [(eojeol ++ [byte], [])]
  | eojeol, byte :: next :: rest =>
    if byte ∈ env.seps1 then ((cutFrom [] (next :: rest)).map ((eojeol, [byte]) :: ·))
    else if (byte, next) ∈ pairs env.seps2 then
      (cutFrom [] rest).map ((eojeol, [byte, next]) :: ·)
    else cutFrom (eojeol ++ [byte]) (next :: rest)

def cut (text : List UInt8) : Option (List (List UInt8 × List UInt8)) := cutFrom env [] text

def highlightPieces (words : List (List UInt8)) :
    List (List UInt8 × List UInt8) → Option (List Letter)
  | [] => some []
  | (eojeol, separator) :: rest =>
    match highlightEojeol env words eojeol, highlightPieces words rest with
    | some str, some more => some (str ++ plain separator ++ more)
    | _, _ => none

/-- `MAX_FIELD_SIZE` -/
def maxFieldSize : Nat := 1024 * 1024

/-- What is left in `field_value`, which is only written to when the text fits. -/
inductive Highlighted where
  | success (text : List Letter)
  | fail
  | fault
  deriving DecidableEq

def highlight (words : List (List UInt8)) (text : List UInt8) : Highlighted :=
  if words = [] then .success (plain text)
  else
    match cut env text with
    | none => .fault
    | some pieces =>
      match highlightPieces env words pieces with
      | none => .fault
      | some str => if str.length ≥ maxFieldSize then .fail else .success str

end Wisebot.Highlight
