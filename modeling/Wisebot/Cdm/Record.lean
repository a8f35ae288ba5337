import Mathlib.Algebra.Ring.Nat
import Mathlib.Data.List.Basic
import Wisebot.Lib.Mem
import Wisebot.Lib.Transition

namespace Wisebot.Cdm

/-! The record that `mod_cdm2` writes for a document: a header with two lengths,
the short fields, the headers of the long fields and their bodies. -/

def maxCdmFileCount : Nat := 256

def headerShortfieldSize : Nat := 11

def headerLongfieldHeadersSize : Nat := 11

def headerSize : Nat := headerShortfieldSize + 1 + headerLongfieldHeadersSize + 1

inductive FieldType where
  | short
  | long
deriving DecidableEq, Repr

/-- `struct cdmfield_t`; a size of 0 is no limit. -/
structure CdmField where
  name : List UInt8
  type : FieldType
  size : Nat
deriving DecidableEq, Repr

abbrev FieldValues := List UInt8 → Option (List UInt8)

/-- The first loop of `init`: the last place that is not `LONG`, as a count of
the places up to it. -/
def lastMark (fields : List CdmField) : Nat :=
  (fields.reverse.dropWhile fun field => decide (field.type = .long)).length

/-- The second loop of `init`, from place `i` on; `mark` counts the places up to
and with `last_mark`. -/
def sortFieldsFrom : (fuel : Nat) → (i mark : Nat) → List CdmField → List CdmField
  | 0, _, _, fields => fields
  | fuel + 1, i, mark, fields =>
    if i + 1 < mark then
      match fields[i]?, fields[mark - 1]? with
      | some field, some other =>
        if field.type = .long then
          sortFieldsFrom fuel (i + 1) (mark - 1) ((fields.set i other).set (mark - 1) field)
        else sortFieldsFrom fuel (i + 1) mark fields
      | _, _ => fields
    else fields

/-- The fields as `init` leaves them. -/
def sortFields (fields : List CdmField) : List CdmField :=
  sortFieldsFrom fields.length 0 (lastMark fields) fields

/-- `count` bytes from the array `zero` on, whose 32 bytes are zero; behind it
stands what the stack has there. -/
def zeroBytes (behind : Nat → UInt8) (count : Nat) : List UInt8 :=
  (List.range count).map fun place => if place < 32 then 0 else behind place

/-- The loop of `append_zero`, which gives `left` bytes and not `zero_size` to
`memfile_append`. -/
def appendZeroFrom (behind : Nat → UInt8) : (fuel : Nat) → (left : Nat) → List UInt8
  | 0, _ => []
  | fuel + 1, left =>
    if 0 < left then
      zeroBytes behind left ++
        appendZeroFrom behind fuel (left - (if left > 32 then 32 else left))
    else []

def appendZero (behind : Nat → UInt8) (count : Nat) : List UInt8 :=
  appendZeroFrom behind count count

/-- The length of the value that is kept and of the zeros behind it. -/
def shortfieldLengths (field : CdmField) (valueLength : Nat) : Nat × Nat :=
  if field.size ≠ 0 then
    if valueLength > field.size then (field.size, 1)
    else (valueLength, field.size - valueLength + 1)
  else (valueLength, 1)

def writeShortfieldToBuf (behind : Nat → UInt8) (field : CdmField) (value : List UInt8) :
    List UInt8 :=
  let (valueLength, zeroLength) := shortfieldLengths field value.length
  field.name ++ [9] ++ value.take valueLength ++ appendZero behind zeroLength

/-- The digits of `%d`. -/
def decimal (number : Nat) : List UInt8 :=
  (Nat.toDigits 10 number).map fun digit => UInt8.ofNat digit.toNat

/-- The header of a long field whose body starts at `textPosition`. -/
def longfieldHeader (field : CdmField) (textPosition valueLength : Nat) : List UInt8 :=
  field.name ++ [9] ++ decimal textPosition ++ [9] ++ decimal (textPosition + valueLength + 1) ++ [0]

structure Parts where
  shortfields : List UInt8
  longfieldHeaders : List UInt8
  longfieldBodies : List UInt8
deriving DecidableEq, Repr

def writeLongfieldToBuf (parts : Parts) (field : CdmField) (value : List UInt8) : Parts :=
  { parts with
    longfieldHeaders := parts.longfieldHeaders ++
      longfieldHeader field parts.longfieldBodies.length value.length
    longfieldBodies := parts.longfieldBodies ++ value ++ [0] }

/-- The loop over the short fields; `behind` is what the stack has behind `zero`
in the call for a field. -/
def writeShortfields (behind : CdmField → Nat → UInt8) (values : FieldValues) (parts : Parts) :
    List CdmField → Parts
  | [] => parts
  | field :: rest =>
    match values field.name with
    | none => writeShortfields behind values parts rest
    | some value =>
      writeShortfields behind values
        { parts with
          shortfields :=
            parts.shortfields ++ writeShortfieldToBuf (behind field) field value } rest

/-- The loop over the fields behind them. -/
def writeLongfields (values : FieldValues) (parts : Parts) : List CdmField → Parts
  | [] => parts
  | field :: rest =>
    match values field.name with
    | none => writeLongfields values parts rest
    | some value => writeLongfields values (writeLongfieldToBuf parts field value) rest

/-- The fields up to the first that is not `SHORT` go to the short fields, all
others to the long ones. -/
def buildParts (behind : CdmField → Nat → UInt8) (fields : List CdmField)
    (values : FieldValues) : Parts :=
  writeLongfields values
    (writeShortfields behind values ⟨[], [], []⟩
      (fields.takeWhile fun field => decide (field.type = .short)))
    (fields.dropWhile fun field => decide (field.type = .short))

def unit : Nat := 1024 * 1024

/-- What waits in the write buffer and what was written to the file. -/
structure WriteBuffer where
  pending : List UInt8
  written : List UInt8
deriving DecidableEq, Repr

def writeBufferFlush (buffer : WriteBuffer) : WriteBuffer :=
  ⟨[], buffer.written ++ buffer.pending⟩

/-- `write_buffer_from_memfile`: the data goes to the buffer in pieces as long as
there is place, which is flushed when it is full. `write_buffer_from_data` does
the same for the header, which is copied once to the empty buffer. -/
def writeBufferFrom : (fuel : Nat) → List UInt8 → WriteBuffer → WriteBuffer
  | 0, _, buffer => buffer
  | fuel + 1, data, buffer =>
    if data = [] then buffer
    else
      let copySize := min data.length (unit - buffer.pending.length)
      let filled : WriteBuffer := { buffer with pending := buffer.pending ++ data.take copySize }
      writeBufferFrom fuel (data.drop copySize)
        (if unit ≤ filled.pending.length then writeBufferFlush filled else filled)

def writeBufferFromAll (data : List UInt8) (buffer : WriteBuffer) : WriteBuffer :=
  writeBufferFrom (data.length + 1) data buffer

/-- `%-11d` -/
def leftJustified (width : Nat) (text : List UInt8) : List UInt8 :=
  text ++ List.replicate (width - text.length) 32

def header (parts : Parts) : List UInt8 :=
  (leftJustified headerShortfieldSize (decimal parts.shortfields.length) ++ [9] ++
    leftJustified headerLongfieldHeadersSize (decimal parts.longfieldHeaders.length) ++
      [10]).take headerSize

/-- The bytes of the record in the order in which they reach the file. -/
def writeRecord (parts : Parts) : List UInt8 :=
  (writeBufferFlush (writeBufferFromAll parts.longfieldBodies
    (writeBufferFromAll parts.longfieldHeaders (writeBufferFromAll parts.shortfields
      (writeBufferFromAll (header parts) ⟨[], []⟩))))).written

/-- `idxEle.length` -/
def recordLength (parts : Parts) : Nat :=
  headerSize + parts.shortfields.length + parts.longfieldHeaders.length +
    parts.longfieldBodies.length

theorem length_header (parts : Parts) : (header parts).length = headerSize := by
  rw [header, List.length_take]
  simp only [List.length_append, leftJustified, List.length_replicate, List.length_cons,
    List.length_nil, headerSize, headerShortfieldSize, headerLongfieldHeadersSize]
  omega

theorem writeBufferFrom_spec (fuel : Nat) (data : List UInt8) (buffer : WriteBuffer)
    (room : buffer.pending.length < unit) (enough : data.length < fuel) :
    (writeBufferFrom fuel data buffer).pending.length < unit ∧
      (writeBufferFrom fuel data buffer).written ++ (writeBufferFrom fuel data buffer).pending =
        buffer.written ++ buffer.pending ++ data := by
  induction fuel generalizing data buffer with
  | zero => omega
  | succ fuel ih =>
    rw [writeBufferFrom]
    split
    next none_left => exact ⟨room, by rw [none_left, List.append_nil]⟩
    next some_left =>
      have positive : 0 < data.length := List.length_pos_iff.mpr some_left
      have rest : (data.drop (min data.length (unit - buffer.pending.length))).length < fuel := by
        rw [List.length_drop]
        omega
      have whole := List.take_append_drop (min data.length (unit - buffer.pending.length)) data
      dsimp only
      split
      next full =>
        obtain ⟨bounded, content⟩ := ih _ (writeBufferFlush
          ⟨buffer.pending ++ data.take (min data.length (unit - buffer.pending.length)),
            buffer.written⟩) (by simp [writeBufferFlush, unit]) rest
        refine ⟨bounded, content.trans ?_⟩
        simp only [writeBufferFlush, List.append_nil, List.append_assoc, whole]
      next space =>
        obtain ⟨bounded, content⟩ := ih _
          ⟨buffer.pending ++ data.take (min data.length (unit - buffer.pending.length)),
            buffer.written⟩ (Nat.lt_of_not_le space) rest
        refine ⟨bounded, content.trans ?_⟩
        simp only [List.append_assoc, whole]

theorem writeBufferFromAll_spec (data : List UInt8) (buffer : WriteBuffer)
    (room : buffer.pending.length < unit) :
    (writeBufferFromAll data buffer).pending.length < unit ∧
      (writeBufferFromAll data buffer).written ++ (writeBufferFromAll data buffer).pending =
        buffer.written ++ buffer.pending ++ data :=
  writeBufferFrom_spec (data.length + 1) data buffer room (by omega)

theorem writeRecord_eq (parts : Parts) :
    writeRecord parts = header parts ++ parts.shortfields ++ parts.longfieldHeaders ++
      parts.longfieldBodies := by
  obtain ⟨headerRoom, afterHeader⟩ :=
    writeBufferFromAll_spec (header parts) ⟨[], []⟩ (by simp [unit])
  obtain ⟨shortRoom, afterShort⟩ := writeBufferFromAll_spec parts.shortfields _ headerRoom
  obtain ⟨headersRoom, afterHeaders⟩ :=
    writeBufferFromAll_spec parts.longfieldHeaders _ shortRoom
  obtain ⟨-, afterBodies⟩ := writeBufferFromAll_spec parts.longfieldBodies _ headersRoom
  rw [writeRecord, writeBufferFlush]
  dsimp only
  rw [afterBodies, afterHeaders, afterShort, afterHeader]
  rfl

theorem length_writeRecord (parts : Parts) : (writeRecord parts).length = recordLength parts := by
  rw [writeRecord_eq, recordLength]
  simp only [List.length_append, length_header]

open Lib

/-! `cdm_put_xmldoc` of `mod_cdm2` and of `mod_cdm3`. What fails during a call is
part of the call; a `none` result is a call that never returns or that leaves
the array of file descriptors. -/

variable {Oid : Type} [DecidableEq Oid]

/-- The map of `mod_did`. -/
structure DidMap (Oid : Type) where
  lastDid : Nat
  docidOf : Oid → Option Nat

/-- `get_new_docid`: the new docid and the one that the object had before. -/
def getNewDocid (did : DidMap Oid) (oid : Oid) : DidMap Oid × Nat × Option Nat :=
  (⟨did.lastDid + 1, Function.update did.docidOf oid (some (did.lastDid + 1))⟩,
    did.lastDid + 1, did.docidOf oid)

/-- The Delete attribute of the documents. -/
abbrev DeleteFlags := Nat → Bool

/-- `set_delete` for the old document, when there is one. -/
def setDelete (deleted : DeleteFlags) : Option Nat → DeleteFlags
  | none => deleted
  | some olddocid => Function.update deleted olddocid true

inductive PutAnswer where
  | success
  | oidDuplicated
  | notWellFormed
  | fail
deriving DecidableEq, Repr

def PutAnswer.stored : PutAnswer → Bool
  | .success => true
  | .oidDuplicated => true
  | .notWellFormed => false
  | .fail => false

/-- What a call leaves; `newdocid` is the id that `get_new_docid` gave. -/
structure PutOutcome (State : Type) where
  state : State
  answer : PutAnswer
  newdocid : Option Nat

def storedAnswer : Option Nat → PutAnswer
  | none => .success
  | some _ => .oidDuplicated

/-! ### `mod_cdm2` -/

structure IndexFileElement where
  docId : Nat
  dwDBNo : Nat
  offset : Nat
  length : Nat
deriving DecidableEq, Repr

/-- The shared memory, the index file, the data files and what the other modules keep. -/
structure Cdm2 (Oid : Type) where
  locked : Bool
  lastDocid : Nat
  dbNo : Nat
  offset : Nat
  index : Nat → IndexFileElement
  files : Nat → Mem
  did : DidMap Oid
  deleted : DeleteFlags

/-- A call and what fails in it. A document that is not well formed has no parts;
`data` is the number of bytes that get to the file before the write fails. -/
structure Put2 (Oid : Type) where
  oid : Oid
  parts : Option Parts
  lockFails : Bool
  openFails : Bool
  docidFails : Bool
  indexFails : Bool
  dataFails : Option Nat

section Put2

variable (cdmFileSize : Nat)

/-- The place of the next document: the end of the last file or a new file. -/
def nextPlace (cdm : Cdm2 Oid) : Nat × Nat :=
  if cdmFileSize ≤ cdm.offset then (cdm.dbNo + 1, 0) else (cdm.dbNo, cdm.offset)

def unlock2 (cdm : Cdm2 Oid) : Cdm2 Oid := { cdm with locked := false }

def writeData (cdm : Cdm2 Oid) (dbNo offset : Nat) (bytes : List UInt8) : Cdm2 Oid :=
  { cdm with
    files := Function.update cdm.files dbNo ((cdm.files dbNo).write offset bytes) }

/-- The call from `get_new_docid` on, under the lock. The way to the label `error`
does not unlock. -/
def putLocked (cdm : Cdm2 Oid) (call : Put2 Oid) (parts : Parts) (dbNo offset : Nat) :
    PutOutcome (Cdm2 Oid) :=
  if call.docidFails then ⟨cdm, .fail, none⟩
  else
    let (did, newdocid, olddocid) := getNewDocid cdm.did call.oid
    let registered := { cdm with did := did, deleted := setDelete cdm.deleted olddocid }
    if call.indexFails then ⟨unlock2 registered, .fail, some newdocid⟩
    else
      let element : IndexFileElement := ⟨newdocid, dbNo, offset, recordLength parts⟩
      let indexed :=
        { registered with index := Function.update registered.index newdocid element }
      match call.dataFails with
      | some count =>
        ⟨unlock2 (writeData indexed dbNo offset ((writeRecord parts).take count)), .fail,
          some newdocid⟩
      | none =>
        ⟨unlock2
          { writeData indexed dbNo offset (writeRecord parts) with
            lastDocid := newdocid, dbNo := dbNo, offset := offset + element.length },
          storedAnswer olddocid, some newdocid⟩

def putXmldoc2 (cdm : Cdm2 Oid) (call : Put2 Oid) : Option (PutOutcome (Cdm2 Oid)) :=
  match call.parts with
  | none => some ⟨cdm, .notWellFormed, none⟩
  | some parts =>
    if cdm.locked = false ∧ call.lockFails then some ⟨cdm, .fail, none⟩
    else
      let (dbNo, offset) := nextPlace cdmFileSize cdm
      let held := { cdm with locked := true }
      if maxCdmFileCount ≤ dbNo then none
      else if call.openFails ∧ dbNo ≠ cdm.dbNo then some ⟨unlock2 held, .fail, none⟩
      else some (putLocked held call parts dbNo offset)

end Put2

def stored2 (cdm : Cdm2 Oid) (docid : Nat) : Option (List UInt8) :=
  if (cdm.index docid).docId = docid ∧ docid ≠ 0 then
    some ((cdm.files (cdm.index docid).dwDBNo).read (cdm.index docid).offset
      (cdm.index docid).length)
  else none

def emptyCdm2 : Cdm2 Oid where
  locked := false
  lastDocid := 0
  dbNo := 0
  offset := 0
  index := fun _ => ⟨0, 0, 0, 0⟩
  files := fun _ _ => 0
  did := ⟨0, fun _ => none⟩
  deleted := fun _ => false

/-! ### `mod_cdm3` -/

structure Cdm3 (Oid : Type) where
  locked : Bool
  lastDocid : Nat
  ifs : Nat → Option (List UInt8)
  did : DidMap Oid
  deleted : DeleteFlags

/-- A call and what fails in it; an append that fails leaves what `appendFails` says. -/
structure Put3 (Oid : Type) where
  oid : Oid
  xmldoc : List UInt8
  wellFormed : Bool
  lockFails : Bool
  docidFails : Bool
  appendFails : Option (Option (List UInt8))

/-- A semaphore that is already held is never got. -/
def putXmldoc3 (cdm : Cdm3 Oid) (call : Put3 Oid) : Option (PutOutcome (Cdm3 Oid)) :=
  if call.wellFormed = false then some ⟨cdm, .notWellFormed, none⟩
  else if call.lockFails then some ⟨cdm, .fail, none⟩
  else if cdm.locked then none
  else if call.docidFails then some ⟨{ cdm with locked := true }, .fail, none⟩
  else
    let (did, newdocid, olddocid) := getNewDocid cdm.did call.oid
    let registered :=
      { cdm with did := did, deleted := setDelete cdm.deleted olddocid, lastDocid := newdocid }
    match call.appendFails with
    | some left =>
      some ⟨{ registered with ifs := Function.update registered.ifs newdocid left }, .fail,
        some newdocid⟩
    | none =>
      some ⟨{ registered with
          ifs := Function.update registered.ifs newdocid (some call.xmldoc) },
        storedAnswer olddocid, some newdocid⟩

def emptyCdm3 : Cdm3 Oid where
  locked := false
  lastDocid := 0
  ifs := fun _ => none
  did := ⟨0, fun _ => none⟩
  deleted := fun _ => false

end Wisebot.Cdm
