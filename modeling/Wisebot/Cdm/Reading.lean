import Wisebot.Lib.Decimal
import Wisebot.Cdm.Record

namespace Wisebot.Cdm

open Lib

/-! Reading of a document of `mod_cdm2`: `cdm_get_doc` parses the short fields and
the headers of the long ones in place, `cdmdoc_get_field` gives the value of one
field. -/

inductive GetError where
  | invalidDocid
  | fail
  | outsideData
deriving DecidableEq, Repr

def isSpace (byte : UInt8) : Bool := byte = 32 || (9 ≤ byte && byte ≤ 13)

/-- `atoi`: the value as a 64 bit `long`, cut to an `int`. -/
def atoi (text : List UInt8) : Int :=
  match text.dropWhile isSpace with
  | 45 :: digits => Int.bmod (-(min (Decimal.readFrom 0 digits) 9223372036854775808 : Nat)) 4294967296
  | 43 :: digits => Int.bmod (min (Decimal.readFrom 0 digits) 9223372036854775807 : Nat) 4294967296
  | digits => Int.bmod (min (Decimal.readFrom 0 digits) 9223372036854775807 : Nat) 4294967296

/-- The pointer `buf` into the data and the position that is counted beside it. -/
structure Cursor where
  buf : Nat
  pos : Nat
deriving DecidableEq, Repr

/-- The loop of `pass_til` and of `pass_not`: on as long as `goOn` holds of the
byte, `room` bytes at most. -/
def pass (data : List UInt8) (goOn : UInt8 → Bool) :
    (room : Nat) → Cursor → Except GetError Cursor
  | 0, cursor => .ok cursor
  | room + 1, cursor =>
    match data[cursor.buf]? with
    | none => .error .outsideData
    | some byte =>
      if goOn byte then pass data goOn room ⟨cursor.buf + 1, cursor.pos + 1⟩
      else .ok cursor

def passTil (data : List UInt8) (term : UInt8) (cursor : Cursor) (maxPos : Nat) :
    Except GetError Cursor :=
  pass data (fun byte => byte ≠ term) (maxPos - cursor.pos) cursor

def passNot (data : List UInt8) (term : UInt8) (cursor : Cursor) (maxPos : Nat) :
    Except GetError Cursor :=
  pass data (fun byte => byte = term) (maxPos - cursor.pos) cursor

/-- `*buf = '\0'; buf++; current_pos++`. -/
def endString (data : List UInt8) (cursor : Cursor) : Except GetError (List UInt8 × Cursor) :=
  if cursor.buf < data.length then
    .ok (data.set cursor.buf 0, ⟨cursor.buf + 1, cursor.pos + 1⟩)
  else .error .outsideData

/-- A short field: where its name and its value begin, and the room for the value. -/
structure Shortfield where
  name : Nat
  value : Nat
  size : Int
deriving DecidableEq, Repr

/-- A long field: where its name begins, and where its text and what follows it
are in the bodies. -/
structure Longfield where
  name : Nat
  textPosition : Nat
  nextPosition : Nat
deriving DecidableEq, Repr

def readShortfields (maxPos : Nat) :
    (fuel : Nat) → List UInt8 → Cursor → Except GetError (List Shortfield × List UInt8 × Cursor)
  | 0, data, cursor => .ok ([], data, cursor)
  | fuel + 1, data, cursor =>
    if cursor.pos < maxPos then do
      let atTab ← passTil data 9 cursor maxPos
      let (named, start) ← endString data atTab
      let atEnd ← passTil named 0 start maxPos
      let behind ← passNot named 0 atEnd maxPos
      let (later, result, last) ← readShortfields maxPos fuel named behind
      .ok (⟨cursor.buf, start.buf, behind.pos - start.pos - 1⟩ :: later, result, last)
    else .ok ([], data, cursor)

/-- An `int` as a `uint32_t`. -/
def toUint32 (value : Int) : Nat := (value % 4294967296).toNat

def readLongfields (maxPos : Nat) :
    (fuel : Nat) → List UInt8 → Cursor → Except GetError (List Longfield × List UInt8)
  | 0, data, _ => .ok ([], data)
  | fuel + 1, data, cursor =>
    if cursor.pos < maxPos then do
      let atTab ← passTil data 9 cursor maxPos
      let (named, start) ← endString data atTab
      let nextTab ← passTil named 9 start maxPos
      let next : Cursor := ⟨nextTab.buf + 1, nextTab.pos + 1⟩
      let atEnd ← passTil named 0 next maxPos
      let (later, result) ← readLongfields maxPos fuel named ⟨atEnd.buf + 1, atEnd.pos + 1⟩
      .ok
        (⟨cursor.buf, toUint32 (atoi (named.drop start.buf)),
            toUint32 (atoi (named.drop next.buf))⟩ :: later,
          result)
    else .ok ([], data)

structure CdmDoc where
  deleted : Bool
  dwDBNo : Nat
  offset : Nat
  data : List UInt8
  shortfields : List Shortfield
  longfields : List Longfield
  longfieldBodiesStart : Nat
deriving DecidableEq, Repr

/-- What `big_calloc` has behind the bytes that are read into it. -/
def bigCalloc (bytes : List UInt8) : List UInt8 :=
  bytes ++ List.replicate (((bytes.length - 1) / 1024 + 1) * 1024 - bytes.length) 0

variable {Oid : Type}

/-- `read_cdm`, relative to the begin of a document. -/
def readCdm (cdm : Cdm2 Oid) (dwDBNo start offset size : Nat) : List UInt8 :=
  (cdm.files dwDBNo).read (start + offset) size

def cdmGetDoc (cdm : Cdm2 Oid) (docid : Nat) : Except GetError CdmDoc :=
  if docid > cdm.lastDocid then .error .invalidDocid
  else if (cdm.index docid).docId ≠ docid then .error .fail
  else do
    let element := cdm.index docid
    let header := readCdm cdm element.dwDBNo element.offset 0 headerSize
    let shortfieldsLength := atoi header
    let longfieldHeadersLength := atoi (header.drop headerShortfieldSize)
    let dataSize := shortfieldsLength + longfieldHeadersLength
    if dataSize < 0 then .error .fail
    else do
      let data :=
        bigCalloc (readCdm cdm element.dwDBNo element.offset headerSize dataSize.toNat)
      let (shortfields, named, cursor) ←
        readShortfields shortfieldsLength.toNat (shortfieldsLength.toNat + 1) data ⟨0, 0⟩
      let (longfields, result) ←
        readLongfields longfieldHeadersLength.toNat (longfieldHeadersLength.toNat + 1) named
          ⟨cursor.buf, 0⟩
      .ok
        { deleted := cdm.deleted docid
          dwDBNo := element.dwDBNo
          offset := element.offset
          data := result
          shortfields := shortfields
          longfields := longfields
          longfieldBodiesStart := headerSize + dataSize.toNat }

def stringAt (data : List UInt8) (place : Nat) : List UInt8 :=
  (data.drop place).takeWhile fun byte => byte ≠ 0

def CdmDoc.fieldNames (doc : CdmDoc) : List (List UInt8) :=
  doc.shortfields.map (fun field => stringAt doc.data field.name) ++
    doc.longfields.map fun field => stringAt doc.data field.name

inductive FieldRet where
  | length (count : Int)
  | notEnoughBuffer
  | fieldNotExists
deriving DecidableEq, Repr

/-- What a call returns and what it has written to `buf`. -/
structure FieldAnswer where
  ret : FieldRet
  buf : List UInt8
deriving DecidableEq, Repr

def getShortfield (doc : CdmDoc) (field : Shortfield) (size : Nat) : FieldAnswer :=
  let value := stringAt doc.data field.value
  let copyLength := if value.length ≥ size then size - 1 else value.length
  ⟨if copyLength = value.length then .length copyLength else .notEnoughBuffer,
    value.take copyLength ++ [0]⟩

def getLongfield (cdm : Cdm2 Oid) (doc : CdmDoc) (field : Longfield) (size : Nat) :
    FieldAnswer :=
  let bodyLeft := toUint32 ((field.nextPosition : Int) - field.textPosition)
  let readSize := if bodyLeft > size then size else bodyLeft
  let read := readCdm cdm doc.dwDBNo doc.offset (doc.longfieldBodiesStart + field.textPosition)
    readSize
  if size ≤ bodyLeft then ⟨.notEnoughBuffer, read.set (readSize - 1) 0⟩
  else ⟨.length ((bodyLeft : Int) - 1), read ++ [0]⟩

/-- `find_field_from_doc`: the short fields stand before the long ones. -/
def cdmdocGetField (cdm : Cdm2 Oid) (doc : CdmDoc) (fieldname : List UInt8) (size : Nat) :
    FieldAnswer :=
  if size = 0 then ⟨.notEnoughBuffer, []⟩
  else
    match doc.shortfields.find? fun field => decide (stringAt doc.data field.name = fieldname) with
    | some field => getShortfield doc field size
    | none =>
      match doc.longfields.find? fun field =>
          decide (stringAt doc.data field.name = fieldname) with
      | some field => getLongfield cdm doc field size
      | none => ⟨.fieldNotExists, [0]⟩

end Wisebot.Cdm
