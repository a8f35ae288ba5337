import Mathlib.Algebra.Ring.Int.Defs
import Mathlib.Algebra.Ring.Nat
import Mathlib.Order.Basic
import Wisebot.Lib.Reading

namespace Wisebot.SimpleXml

open Wisebot.Lib Wisebot.Lib.Reading

/-! The parser for documents of two levels: `mod_xmlparser/mod_simple_xmlparser.c`. A
reader returns 0 where it fails; it goes wrong where it looks behind the document or
writes behind an array. Lines and columns, which only the log shows, are left out. -/

abbrev Bytes := List UInt8

def shortStringSize : Nat := 64

def maxFieldNum : Nat := 64

/-- `isspace` of the C locale. -/
def isSpace (byte : UInt8) : Bool := byte = 32 || (9 ≤ byte && byte ≤ 13)

/-- `<![CDATA[` -/
def cdataStart : Bytes := [60, 33, 91, 67, 68, 65, 84, 65, 91]

/-- The variables of a reader: `text` as the bytes from its address to the end of the
document, `name` as what has been written to the array of a name, which has `room` bytes;
`fieldtext` counts from the start of the reader. -/
structure Scan where
  text : Bytes
  left : Int
  count : Nat
  c : UInt8
  room : Nat
  name : Bytes
  fieldtext : Nat
  fieldlength : Int

/-- `c = *text` -/
def look : Reading Scan Unit := do
  let text ← gets Scan.text
  require (text ≠ [])
  update fun scan => { scan with c := text.headD 0 }

/-- `GETC`, and `GETC2`, which is the same without a message. -/
def getc : Reading Scan Unit := do
  let left ← gets Scan.left
  ensure (left ≠ 0)
  look

/-- `NEXT` -/
def next : Reading Scan Unit :=
  update fun scan =>
    { scan with text := scan.text.tail, left := scan.left - 1, count := scan.count + 1 }

def expect (char : UInt8) : Reading Scan Unit := do
  let c ← gets Scan.c
  ensure (c = char)

def spaceRound : Reading Scan Bool := do
  let left ← gets Scan.left
  if 0 < left then
    look
    let c ← gets Scan.c
    if isSpace c then
      next
      pure true
    else pure false
  else pure false

/-- The rounds of a loop that takes a byte of the document in each but the last one. -/
def loopOverText (round : Reading Scan Bool) : Reading Scan Unit := do
  let text ← gets Scan.text
  loop round (text.length + 1)

/-- `SKIPSPACE` -/
def skipSpace : Reading Scan Unit := do
  loopOverText spaceRound
  let left ← gets Scan.left
  ensure (left ≠ 0)

def write (byte : UInt8) : Reading Scan Unit := do
  let name ← gets Scan.name
  let room ← gets Scan.room
  require (name.length < room)
  update fun scan => { scan with name := scan.name ++ [byte] }

/-- The zero behind a name. -/
def writeEnd : Reading Scan Unit := do
  let name ← gets Scan.name
  let room ← gets Scan.room
  require (name.length < room)

def nameRound : Reading Scan Bool := do
  let left ← gets Scan.left
  if 0 < left then
    look
    let c ← gets Scan.c
    if c ≠ 62 then
      write c
      next
      pure true
    else pure false
  else pure false

/-- The name up to `>`. -/
def readName : Reading Scan Unit := do
  loopOverText nameRound
  writeEnd
  expect 62
  next

def readRootnodeStart : Reading Scan Unit := do
  skipSpace
  expect 60
  next
  readName

def readFieldStart : Reading Scan Unit := do
  skipSpace
  expect 60
  next
  let text ← gets Scan.text
  require (text ≠ [])
  ensure (text.headD 0 ≠ 47)
  readName

/-- The loop that compares a name, given as the bytes before its zero. -/
def compareName : (name : Bytes) → Reading Scan Unit
  | [] => do
      let left ← gets Scan.left
      if 0 < left then update fun scan => { scan with c := 0 } else pure ()
  | char :: name => do
      let left ← gets Scan.left
      if 0 < left then
        update fun scan => { scan with c := char }
        let text ← gets Scan.text
        require (text ≠ [])
        ensure (text.headD 0 = char)
        next
        compareName name
      else pure ()

def readEnd (name : Bytes) : Reading Scan Unit := do
  skipSpace
  expect 60
  next
  getc
  expect 47
  next
  compareName name
  getc
  expect 62
  next

def readRootnodeEnd (rootnode : Bytes) : Reading Scan Unit := readEnd rootnode

def readFieldEnd (fieldname : Bytes) : Reading Scan Unit := readEnd fieldname

/-- `strncmp` of the text with a string, over the length of the string: whether they are
equal, `none` for a look behind the document. -/
def strncmp : (text : Bytes) → (string : Bytes) → Option Bool
  | _, [] => some true
  | [], _ :: _ => none
  | byte :: text, char :: string => if byte = char then strncmp text string else some false

/-- `]` and `]]` lead to the states 1 and 2. -/
def cdataState (state : Nat) (c : UInt8) : Nat :=
  match state with
  | 0 => if c = 93 then 1 else 0
  | 1 => if c = 93 then 2 else 0
  | _ => if c ≠ 93 then 0 else 2

/-- The loop up to `]]>`, which it leaves before its last character. -/
def cdataLoop : (fuel : Nat) → (state : Nat) → Reading Scan Unit
  | 0, _ => fun _ => none
  | fuel + 1, state => do
      getc
      let c ← gets Scan.c
      if state = 2 ∧ c = 62 then pure ()
      else
        next
        cdataLoop fuel (cdataState state c)

/-- What follows the nine bytes of `<![CDATA[`, which stands at `tmp`. -/
def readCdataValue : Reading Scan Unit := do
  let tmp ← gets Scan.count
  update fun scan =>
    { scan with text := scan.text.drop 9, count := scan.count + 9, left := scan.left - 9 }
  update fun scan => { scan with fieldtext := scan.count }
  let text ← gets Scan.text
  cdataLoop (text.length + 1) 0
  next
  update fun scan => { scan with fieldlength := scan.count - tmp - 12 }

def readCdata : Reading Scan Unit := do
  skipSpace
  let text ← gets Scan.text
  require ((strncmp text cdataStart).isSome = true)
  ensure (strncmp text cdataStart = some true)
  readCdataValue

def textRound : Reading Scan Bool := do
  let left ← gets Scan.left
  if 0 < left then
    getc
    let c ← gets Scan.c
    if c = 60 then pure false
    else
      next
      pure true
  else pure false

def readText : Reading Scan Unit := do
  update fun scan => { scan with fieldtext := scan.count }
  loopOverText textRound
  update fun scan => { scan with fieldlength := scan.count }

structure Field where
  name : Bytes
  value : Nat
  length : Int
deriving DecidableEq

/-- The fields up to `fieldcount`; a name is the bytes before the first zero of its array. -/
structure Parser where
  rootnode : Bytes
  fields : List Field
deriving DecidableEq

def stringOf (bytes : Bytes) : Bytes := bytes.takeWhile fun byte => byte ≠ 0

def Scan.start (xmltext : Bytes) (pos room : Nat) : Scan where
  text := xmltext.drop pos
  left := (xmltext.length : Int) - pos
  count := 0
  c := 0
  room := room
  name := []
  fieldtext := 0
  fieldlength := 0

/-- A reader called at a position; the array of the name has that many bytes. -/
def call (xmltext : Bytes) (pos room : Nat) (reader : Reading Scan Unit) : Outcome Scan :=
  (outcome reader (Scan.start xmltext pos room)).bind fun ended => .ended ended.2

/-- The bytes that may be written to `fieldnames[fieldcount]`. -/
def nameRoom (fieldcount : Nat) : Nat := if fieldcount < maxFieldNum then shortStringSize else 0

/-- CDATA, or else text. -/
def readValue (xmltext : Bytes) (pos room : Nat) : Outcome Scan :=
  match call xmltext pos room readCdata with
  | .failed => call xmltext pos room readText
  | read => read

/-- The loop of `parselen`: the position of the end tag of the root and the fields;
failed is the jump to `error`. -/
def fieldLoop (xmltext : Bytes) : (fuel pos : Nat) → (fields : List Field) →
    Outcome (Nat × List Field)
  | 0, _, _ => .wrong
  | fuel + 1, pos, fields =>
    match call xmltext pos (nameRoom fields.length) readFieldStart with
    | .wrong => .wrong
    | .failed => .ended (pos, fields)
    | .ended start =>
      let text := pos + start.count
      (readValue xmltext text 0).bind fun value =>
        let behind := text + value.count
        (call xmltext behind 0 (readFieldEnd (stringOf start.name))).bind fun closed =>
          fieldLoop xmltext fuel (behind + closed.count)
            (fields ++ [⟨stringOf start.name, text + value.fieldtext, value.fieldlength⟩])

/-- Failed is `NULL`. -/
def parselen (xmltext : Bytes) : Outcome Parser :=
  (call xmltext 0 shortStringSize readRootnodeStart).bind fun root =>
    (fieldLoop xmltext (xmltext.length + 1) root.count []).bind fun read =>
      (call xmltext read.1 0 (readRootnodeEnd (stringOf root.name))).bind fun _ =>
        .ended ⟨stringOf root.name, read.2⟩

def tolower (char : UInt8) : UInt8 := if 65 ≤ char ∧ char ≤ 90 then char + 32 else char

/-- `strcasecmp` finds no difference. -/
def sameName (first second : Bytes) : Bool := first.map tolower = second.map tolower

/-- What stands behind the last slash of a query; the first character is passed over
whatever it is. -/
def lastName (query : Bytes) : Bytes :=
  ((query.drop 1).reverse.takeWhile fun byte => byte ≠ 47).reverse

/-- The value of the last field with the name and its length; `none` is `FAIL`. -/
def retrieveField (parser : Parser) (query : Bytes) : Option (Nat × Int) :=
  (parser.fields.reverse.find? fun field => sameName field.name (lastName query)).map fun field =>
    (field.value, field.length)

end Wisebot.SimpleXml
