import Wisebot.Lib.Bits
import Wisebot.Lib.Word

namespace Wisebot.Docattr

open Wisebot.Lib

/-! Document attributes (`mod_site_general/mod_docattr_general2.c`): records of
64 bytes with fields that are set from strings. A `long` has 64 bits, an `int`
32 bits, both in two's complement and stored little endian; the shift of an
`int` constant by 32 or more and the overflow of an `int` subtraction have no
defined result (`none`). -/

def shortStringSize : Nat := 64

def maxDocattrField : Nat := 32

def maxDocattrElementSize : Nat := 64

def sizeofLong : Nat := 8

def bitPerByte : Nat := 8

def maxBitSize : Int := 62

structure CString where
  bytes : List UInt8
  noZero : 0 ∉ bytes

inductive Ret where
  | success
  | fail
  deriving DecidableEq, Repr

abbrev Record := BitVec 512

/-! Numbers: `dt_isNumber` with `strtol` of base 0. -/

def isSpace (char : UInt8) : Bool := char = 32 ∨ (9 ≤ char ∧ char ≤ 13)

def isDigit (char : UInt8) : Bool := 48 ≤ char ∧ char ≤ 57

def toLower (char : UInt8) : UInt8 := if 65 ≤ char ∧ char ≤ 90 then char + 32 else char

def digitValue (char : UInt8) : Option Nat :=
  let char := toLower char
  if isDigit char then some (char.toNat - 48)
  else if 97 ≤ char ∧ char ≤ 102 then some (char.toNat - 87)
  else none

def isDigitOf (base : Nat) (char : UInt8) : Bool :=
  match digitValue char with
  | some digit => digit < base
  | none => false

def digitsValue (base : Nat) (digits : List UInt8) : Nat :=
  digits.foldl (fun value char => value * base + (digitValue char).getD 0) 0

def splitBase : List UInt8 → Nat × List UInt8
  | 48 :: mark :: first :: rest =>
    if toLower mark = 120 ∧ isDigitOf 16 first then (16, first :: rest)
    else (8, 48 :: mark :: first :: rest)
  | 48 :: rest => (8, 48 :: rest)
  | string => (10, string)

structure Strtol where
  value : Int
  overflow : Bool
  rest : List UInt8
  deriving DecidableEq

def strtol (string : List UInt8) : Strtol :=
  let unspaced := string.dropWhile isSpace
  let negative : Bool := unspaced.head? = some 45
  let unsigned :=
    if unspaced.head? = some 45 ∨ unspaced.head? = some 43 then unspaced.drop 1
    else unspaced
  let (base, text) := splitBase unsigned
  let digits := text.takeWhile (isDigitOf base)
  if digits = [] then ⟨0, false, string⟩
  else
    let magnitude : Int := digitsValue base digits
    let value := if negative then -magnitude else magnitude
    let rest := text.dropWhile (isDigitOf base)
    if value < -2 ^ 63 then ⟨-2 ^ 63, true, rest⟩
    else if value > 2 ^ 63 - 1 then ⟨2 ^ 63 - 1, true, rest⟩
    else ⟨value, false, rest⟩

/-- `strcasecmp` of strings of less than 64 bytes. -/
def sameName (left right : List UInt8) : Bool := left.map toLower = right.map toLower

def returnEnumValue (enums : List (List UInt8 × BitVec 64)) (value : List UInt8) : BitVec 64 :=
  match enums.find? fun enum => sameName value enum.1 with
  | some enum => enum.2
  | none => 0

def blankZeros (string : List UInt8) : List UInt8 :=
  if string ≠ [] ∧ string.all isDigit ∧ ¬ string.all (· = 48) then
    let zeros := string.takeWhile (· = 48)
    List.replicate zeros.length 32 ++ string.dropWhile (· = 48)
  else string

/-- A string that fills the copy is left without its end. The inner `none` is
`FAIL`. -/
def dtIsNumber (enums : List (List UInt8 × BitVec 64)) (string : CString) :
    Option (Option (BitVec 64)) :=
  if shortStringSize ≤ string.bytes.length then none
  else
    let copy := blankZeros string.bytes
    let result := strtol copy
    if result.rest ≠ [] then
      let value := returnEnumValue enums copy
      some (if value = 0 then none else some value)
    else if result.overflow then some none
    else some (some (BitVec.ofInt 64 result.value))

/-- Which pair of `set_func` and `get_func` a field has. -/
inductive Accessor where
  | string
  | integer
  | integer4
  | integer2
  | integer1
  | onebit
  | bit
  | md5
  deriving DecidableEq, Repr

structure Field where
  name : List UInt8
  accessor : Accessor
  offset : Nat
  size : Nat
  bitOffset : Nat
  bitSize : Nat
  deriving DecidableEq

def Field.isBit (field : Field) : Bool :=
  field.accessor = .onebit ∨ field.accessor = .bit

inductive Value where
  | integer (number : BitVec 64)
  | string (bytes : List UInt8)
  | md5 (digest : BitVec 64)
  deriving DecidableEq

/-- `1 << count` as an `int`. -/
def shiftOne (count : Nat) : Option (BitVec 32) :=
  if count < 32 then some (1#32 <<< count) else none

/-- `(1 << size) - 1` as an `int`. -/
def lowMask (size : Nat) : Option (BitVec 32) :=
  match shiftOne size with
  | some one => if one = BitVec.intMin 32 then none else some (one - 1)
  | none => none

def loadByte (record : Record) (offset : Nat) : UInt8 :=
  UInt8.ofBitVec (Bits.load record (bitPerByte * offset) 8)

def storeBytes (record : Record) (offset : Nat) : List UInt8 → Record
  | [] => record
  | byte :: bytes =>
    storeBytes (Bits.store record (bitPerByte * offset) byte.toBitVec) (offset + 1) bytes

def loadLong (record : Record) (offset : Nat) : BitVec 64 :=
  Bits.load record (bitPerByte * offset) 64

def storeLong (record : Record) (offset : Nat) (value : BitVec 64) : Record :=
  Bits.store record (bitPerByte * offset) value

/-- What `strncpy` of a size leaves, with the last byte cleared. -/
def cutString (value : List UInt8) (size : Nat) : List UInt8 :=
  let kept := value.take (size - 1)
  kept ++ List.replicate (size - kept.length) 0

def stringSetFunc (record : Record) (field : Field) (value : CString) : Record :=
  storeBytes record field.offset (cutString value.bytes field.size)

def stringGetFunc (record : Record) (field : Field) : List UInt8 :=
  ((List.range field.size).map fun index => loadByte record (field.offset + index)).takeWhile
    (· ≠ 0)

/-- The number a setter stores in `bits` bits; the narrow ones check it. -/
def setNumber (enums : List (List UInt8 × BitVec 64)) (record : Record) (field : Field)
    (value : CString) (bits : Nat) (checked : Bool) : Option (Ret × Record) :=
  match dtIsNumber enums value with
  | none => none
  | some none => some (.fail, record)
  | some (some number) =>
    if checked ∧ (number.setWidth bits).signExtend 64 ≠ number then some (.fail, record)
    else
      some (.success,
        Bits.store record (bitPerByte * field.offset) (number.setWidth bits))

def getNumber (record : Record) (field : Field) (bits : Nat) : BitVec 64 :=
  (Bits.load record (bitPerByte * field.offset) bits).signExtend 64

def onebitSetFunc (record : Record) (field : Field) (value : CString) :
    Option (Ret × Record) :=
  if value.bytes = [48] then
    match shiftOne field.bitOffset with
    | none => none
    | some one =>
      some (.success, storeLong record field.offset
        (loadLong record field.offset &&& ~~~(one.signExtend 64)))
  else if value.bytes = [49] then
    match shiftOne field.bitOffset with
    | none => none
    | some one =>
      some (.success, storeLong record field.offset
        (loadLong record field.offset ||| one.signExtend 64))
  else some (.fail, record)

def onebitGetFunc (record : Record) (field : Field) : Option (BitVec 64) :=
  match shiftOne field.bitOffset with
  | none => none
  | some one =>
    some (if loadLong record field.offset &&& one.signExtend 64 ≠ 0 then 1 else 0)

def bitSetFunc (enums : List (List UInt8 × BitVec 64)) (record : Record) (field : Field)
    (value : CString) : Option (Ret × Record) :=
  match dtIsNumber enums value with
  | none => none
  | some none => some (.fail, record)
  | some (some number) =>
    match shiftOne field.bitSize with
    | none => none
    | some one =>
      if (one.signExtend 64).sle number then some (.fail, record)
      else
        match lowMask field.bitSize with
        | none => none
        | some mask =>
          let cleared := ~~~(mask.signExtend 64 <<< field.bitOffset)
          some (.success, storeLong record field.offset
            ((loadLong record field.offset &&& cleared) |||
              (number <<< field.bitOffset)))

def bitGetFunc (record : Record) (field : Field) : Option (BitVec 64) :=
  match lowMask field.bitSize with
  | none => none
  | some mask =>
    some ((loadLong record field.offset).sshiftRight field.bitOffset &&& mask.signExtend 64)

/-- `sb_hanja2hangul` leaves the string as it is; `md5` stands for the first
eight bytes of the digest. -/
structure Environment where
  enums : List (List UInt8 × BitVec 64)
  md5 : List UInt8 → BitVec 64

def setFunc (env : Environment) (record : Record) (field : Field) (value : CString) :
    Option (Ret × Record) :=
  match field.accessor with
  | .string => some (.success, stringSetFunc record field value)
  | .integer => setNumber env.enums record field value 64 false
  | .integer4 => setNumber env.enums record field value 32 false
  | .integer2 => setNumber env.enums record field value 16 true
  | .integer1 => setNumber env.enums record field value 8 true
  | .onebit => onebitSetFunc record field value
  | .bit => bitSetFunc env.enums record field value
  | .md5 => some (.success, storeLong record field.offset (env.md5 value.bytes))

def getFunc (record : Record) (field : Field) : Option Value :=
  match field.accessor with
  | .string => some (.string (stringGetFunc record field))
  | .integer => some (.integer (getNumber record field 64))
  | .integer4 => some (.integer (getNumber record field 32))
  | .integer2 => some (.integer (getNumber record field 16))
  | .integer1 => some (.integer (getNumber record field 8))
  | .onebit => (onebitGetFunc record field).map .integer
  | .bit => (bitGetFunc record field).map .integer
  | .md5 => some (.md5 (loadLong record field.offset))

def returnDocattrField (schema : List Field) (name : List UInt8) : Option Field :=
  schema.find? fun field => sameName name field.name

def setDocattrFunction (env : Environment) (schema : List Field) (record : Record)
    (name : List UInt8) (value : CString) : Option (Ret × Record) :=
  match returnDocattrField schema name with
  | none => some (.fail, record)
  | some field => setFunc env record field value

end Wisebot.Docattr
