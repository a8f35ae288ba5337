import Mathlib.Algebra.Ring.Nat
import Mathlib.Data.List.Forall2
import Mathlib.Logic.Function.Basic
import Mathlib.Tactic.Ring
import Wisebot.Lib.Chunks

namespace Wisebot.Vrfi

/-! Variable records (`mod_vrfi`): the elements appended to a key stand in data
files, and a backward-linked list of headers tells where. System calls are taken
to succeed, and the mapped master file is a function of the key. A `none` result
is an access outside an array, or a read where no header was written. -/

def w32 (value : Nat) : Nat := value % 2 ^ 32

def w16 (value : Nat) : Nat := value % 2 ^ 16

def w8 (value : Nat) : Nat := value % 2 ^ 8

inductive Ret where
  | success
  | fail
  deriving DecidableEq

/-! Data files (`data_handle.c`). -/

def maxVrfDatafile : Nat := 32

def datafileSize : Nat := 1000000000

structure Location where
  startbyte : Nat
  size : Nat
  fileno : Nat
  deriving DecidableEq

structure DataHandle where
  lastDataFileIdx : Nat
  lastFileUsedByte : Nat
  files : Nat → List UInt8

/-- `write` at an offset; a gap behind the end is filled with zeros. -/
def overwrite (file : List UInt8) (offset : Nat) (data : List UInt8) : List UInt8 :=
  file.take offset ++ List.replicate (offset - file.length) 0 ++ data ++
    file.drop (offset + data.length)

/-- A file that would grow too large is left for the next one. -/
def DataHandle.withRoom (handle : DataHandle) (size : Nat) : DataHandle :=
  if w32 (handle.lastFileUsedByte + size) > datafileSize then
    { handle with lastDataFileIdx := handle.lastDataFileIdx + 1, lastFileUsedByte := 0 }
  else handle

def appendData (handle : DataHandle) (size : Nat) (data : List UInt8) :
    Option (DataHandle × Location) :=
  let handle := handle.withRoom size
  let idx := handle.lastDataFileIdx
  if maxVrfDatafile ≤ idx ∨ data.length < size then none
  else
    some ({ handle with
      files := Function.update handle.files idx
        (overwrite (handle.files idx) handle.lastFileUsedByte (data.take size))
      lastFileUsedByte := w32 (handle.lastFileUsedByte + size) },
      { startbyte := handle.lastFileUsedByte, size := size, fileno := w16 idx })

/-- The inner `none` is `FAIL`: the file is too short. -/
def getData (handle : DataHandle) : List Location → Option (Option (List UInt8))
  | [] => some (some [])
  | location :: locations =>
    if maxVrfDatafile ≤ location.fileno then none
    else
      let bytes := ((handle.files location.fileno).drop location.startbyte).take location.size
      if bytes.length ≠ location.size then some none
      else
        match getData handle locations with
        | none => none
        | some none => some none
        | some (some rest) => some (some (bytes ++ rest))

/-! Header files (`header_handle.c`). -/

def maxVrfHeaderfile : Nat := 32

def headerfileSize : Nat := 2 ^ 31 - 1

def maxHeaderdataSize : Nat := 20

structure Header where
  start : Nat
  nelm : Nat
  fileno : Nat
  deriving DecidableEq

structure HeaderPos where
  position : Nat
  fileno : Nat
  deriving DecidableEq

structure HeaderMetadata where
  key : Nat
  prev : HeaderPos
  deriving DecidableEq

structure HeaderData where
  header : Header
  metadata : HeaderMetadata
  deriving DecidableEq

/-- `sizeof(header_data_t)`. -/
def headerDataSize : Nat := 20

/-- `files` gives the header at a position of a file. -/
structure HeaderHandle where
  lastHeaderFileIdx : Nat
  lastFileUsedByte : Nat
  files : Nat → Nat → Option HeaderData

def dummyHeader : HeaderData := ⟨⟨0, 0, 0⟩, 0, 0, 0⟩

/-- The headers as they are written, each linked to the one before. -/
def linkHeaders (key idx : Nat) : (position : Nat) → HeaderPos → List Header → List HeaderData
  | _, _, [] => []
  | position, prev, header :: headers =>
    ⟨header, key, prev⟩ ::
      linkHeaders key idx (w32 (position + headerDataSize)) ⟨position, w8 idx⟩ headers

def writeHeaders (file : Nat → Option HeaderData) :
    (position : Nat) → List HeaderData → Nat → Option HeaderData
  | _, [] => file
  | position, header :: headers =>
    writeHeaders (Function.update file position (some header)) (position + headerDataSize) headers

/-- A file that would grow too large is left for the next one. -/
def HeaderHandle.withRoom (handle : HeaderHandle) (size : Nat) : HeaderHandle :=
  if w32 (handle.lastFileUsedByte + size) > headerfileSize then
    { handle with lastHeaderFileIdx := handle.lastHeaderFileIdx + 1, lastFileUsedByte := 0 }
  else handle

/-- With no headers at all the new last position is the one before the end. -/
def appendHeaders (handle : HeaderHandle) (key : Nat) (lastpos : HeaderPos)
    (headers : List Header) : Option (Ret × HeaderHandle × HeaderPos) :=
  if maxHeaderdataSize < headers.length then some (.fail, handle, lastpos)
  else
    let handle := handle.withRoom (w32 (headers.length * headerDataSize))
    let idx := handle.lastHeaderFileIdx
    let used := handle.lastFileUsedByte
    if maxVrfHeaderfile ≤ idx then none
    else
      some (.success,
        { handle with
          files := Function.update handle.files idx
            (writeHeaders (handle.files idx) used (linkHeaders key idx used lastpos headers))
          lastFileUsedByte := w32 (used + headers.length * headerDataSize) },
        ⟨w32 (used + headers.length * headerDataSize + (2 ^ 32 - headerDataSize)), w8 idx⟩)

def readOneHeader (handle : HeaderHandle) (headerMeta : HeaderMetadata) : Option HeaderData :=
  if maxVrfHeaderfile ≤ headerMeta.prev.fileno then none
  else handle.files headerMeta.prev.fileno headerMeta.prev.position

def isFirstHeader (headerData : HeaderData) : Bool :=
  headerData.metadata.prev.fileno = 0 ∧ headerData.metadata.prev.position = 0

def Header.trimEnd (header : Header) (count : Nat) : Header :=
  { header with nelm := w16 (header.nelm - count) }

def Header.trimStart (header : Header) (nreads : Nat) : Header :=
  { header with start := w32 (header.start + (header.nelm - nreads)), nelm := w16 nreads }

/-- The part of a header that is wanted, where it is not skipped as a whole. -/
def wantedPart (header : Header) (skip nelm skipped taken : Nat) : Header :=
  let header :=
    if skipped < skip ∧ w32 (skipped + header.nelm) > skip then header.trimEnd (skip - skipped)
    else header
  if w32 (taken + header.nelm) > nelm then header.trimStart (nelm - taken) else header

/-- The loop of `get_headers`; `skipped` and `taken` are its `_skip` and `_nelm`.
The inner `none` is `FAIL`. -/
def getHeadersFrom (handle : HeaderHandle) (key skip nelm size : Nat) :
    (fuel : Nat) → (skipped taken : Nat) → (headers : List Header) → HeaderMetadata →
      Option (Option (List Header × Nat))
  | 0, _, _, _, _ => none
  | fuel + 1, skipped, taken, headers, headerMeta =>
    if nelm ≤ taken then some (some (headers, taken))
    else
      match readOneHeader handle headerMeta with
      | none => none
      | some headerData =>
        if headerData.metadata.key ≠ key then some none
        else if w32 (skipped + headerData.header.nelm) ≤ skip then
          getHeadersFrom handle key skip nelm size fuel
            (w32 (skipped + headerData.header.nelm)) taken headers headerData.metadata
        else
          let header := wantedPart headerData.header skip nelm skipped taken
          let skipped := max skipped skip
          let taken := w32 (taken + header.nelm)
          if size ≤ headers.length then none
          else
            let headers := headers ++ [header]
            if size ≤ headers.length ∧ taken < nelm then some (some (headers, taken))
            else if isFirstHeader headerData ∧ taken < nelm then some (some (headers, taken))
            else
              getHeadersFrom handle key skip nelm size fuel skipped taken headers
                headerData.metadata

def getHeaders (fuel : Nat) (handle : HeaderHandle) (headerMeta : HeaderMetadata)
    (skip nelm size : Nat) : Option (Option (List Header × Nat)) :=
  getHeadersFrom handle headerMeta.key skip nelm size fuel 0 0 [] headerMeta

/-! Records (`mod_vrfi.c`). -/

def maxHeaderAtRead : Nat := 2048

def maxLocationAtRead : Nat := 2048

def maxHeadersAtAppend : Nat := 10

def maxVrfShmNum : Nat := 80

def numOfEachBundledKeys : Nat := 500000

/-- What the master file has for a key, besides its fixed part. -/
structure Master where
  ndata : Nat
  lastPos : HeaderPos
  deriving DecidableEq

structure VariableRecordFile where
  readOnly : Bool
  defaultVariableSize : Nat
  master : Nat → Master
  headerHandle : HeaderHandle
  dataHandle : DataHandle

/-- A file that `vrfi_open` has just created. -/
def vrfiOpen (defaultVariableSize : Nat) : VariableRecordFile where
  readOnly := false
  defaultVariableSize := defaultVariableSize
  master := fun _ => ⟨0, 0, 0⟩
  headerHandle := {
    lastHeaderFileIdx := 0
    lastFileUsedByte := headerDataSize
    files := fun fileno position =>
      if fileno = 0 ∧ position = 0 then some dummyHeader else none }
  dataHandle := {
    lastDataFileIdx := 0
    lastFileUsedByte := 0
    files := fun _ => [] }

def getShmaddrWithKey (this : VariableRecordFile) (key : Nat) : Option Master :=
  if maxVrfShmNum ≤ key / numOfEachBundledKeys then none else some (this.master key)

def maxnelm : Nat := 2 ^ 16 - 1

/-- The loop of `make_headers_from_location`. -/
def makeHeadersFrom (defaultVariableSize fileno endbyte : Nat) :
    (size startbyte : Nat) → List Header
  | 0, _ => []
  | size + 1, startbyte =>
    if endbyte ≤ startbyte then []
    else
      ⟨startbyte / defaultVariableSize, min (w16 ((endbyte - startbyte) / defaultVariableSize))
        maxnelm, w8 fileno⟩ ::
        makeHeadersFrom defaultVariableSize fileno endbyte size
          (w32 (startbyte + maxnelm * defaultVariableSize))

def makeHeadersFromLocation (this : VariableRecordFile) (location : Location) (size : Nat) :
    List Header :=
  makeHeadersFrom this.defaultVariableSize location.fileno
    (w32 (location.startbyte + location.size)) size location.startbyte

/-- The locations in the order in which the elements were appended. -/
def makeLocationsFromHeaders (this : VariableRecordFile) (headers : List Header)
    (nlocations : Nat) : List Location :=
  ((headers.take nlocations).map fun header =>
    { startbyte := w32 (header.start * this.defaultVariableSize)
      size := w32 (header.nelm * this.defaultVariableSize)
      fileno := header.fileno }).reverse

def vrfiAppendvariable (this : VariableRecordFile) (key nelm : Nat) (data : List UInt8) :
    Option (Ret × VariableRecordFile) :=
  if this.readOnly then some (.fail, this)
  else if nelm = 0 then some (.success, this)
  else
    match appendData this.dataHandle (w32 (nelm * this.defaultVariableSize)) data with
    | none => none
    | some (dataHandle, location) =>
      let this := { this with dataHandle := dataHandle }
      let headers := makeHeadersFromLocation this location maxHeadersAtAppend
      match getShmaddrWithKey this key with
      | none => none
      | some master =>
        match appendHeaders this.headerHandle key master.lastPos headers with
        | none => none
        | some (.fail, headerHandle, _) => some (.fail, { this with headerHandle := headerHandle })
        | some (.success, headerHandle, newLastPos) =>
          some (.success, { this with
            headerHandle := headerHandle
            master := Function.update this.master key
              ⟨w32 (master.ndata + nelm), newLastPos⟩ })

/-- The conversion of a `uint32_t` to the `int` that is returned. -/
def toInt32 (value : Nat) : Int := if value < 2 ^ 31 then value else (value : Int) - 4294967296

/-- `-1` where it fails, else the number of elements and their bytes. -/
def vrfiGetvariable (fuel : Nat) (this : VariableRecordFile) (key skip nelm : Nat) :
    Option (Int × List UInt8) :=
  match getShmaddrWithKey this key with
  | none => none
  | some info =>
    if info.ndata < w32 (skip + nelm) ∧ skip ≠ 0 ∧ info.ndata ≤ skip then some (-1, [])
    else
      let nelm := if info.ndata < w32 (skip + nelm) then info.ndata - skip else nelm
      match getHeaders fuel this.headerHandle ⟨key, info.lastPos⟩ skip nelm maxHeaderAtRead with
      | none => none
      | some none => some (-1, [])
      | some (some (headers, read)) =>
        match getData this.dataHandle
            (makeLocationsFromHeaders this headers maxLocationAtRead) with
        | none => none
        | some none => some (-1, [])
        | some (some data) => some (toInt32 read, data)

/-- One call of `vrfi_appendvariable`. -/
structure Append where
  key : Nat
  nelm : Nat
  data : List UInt8

/-- Appends that all return `SUCCESS`. -/
def runAppends : VariableRecordFile → List Append → Option VariableRecordFile
  | this, [] => some this
  | this, append :: appends =>
    match vrfiAppendvariable this append.key append.nelm append.data with
    | some (.success, next) => runAppends next appends
    | _ => none

open Wisebot.Lib.Chunks

/-! Elements in the data files, and the headers that tell where they are. -/

abbrev Element (size : Nat) := Vector UInt8 size

def bytesOf {size : Nat} (elements : List (Element size)) : List UInt8 :=
  elements.flatMap Vector.toList

section Bytes

variable {size : Nat}

@[simp] theorem bytesOf_nil : bytesOf ([] : List (Element size)) = [] := rfl

@[simp] theorem bytesOf_append (first second : List (Element size)) :
    bytesOf (first ++ second) = bytesOf first ++ bytesOf second := by
  simp [bytesOf]

@[simp] theorem length_bytesOf (elements : List (Element size)) :
    (bytesOf elements).length = elements.length * size := by
  induction elements with
  | nil => simp
  | cons element elements induction =>
    simp only [bytesOf, List.flatMap_cons, List.length_append, Vector.length_toList,
      List.length_cons] at induction ⊢
    rw [induction]
    ring

theorem bytesOf_drop (elements : List (Element size)) {count : Nat}
    (fits : count ≤ elements.length) :
    bytesOf (elements.drop count) = (bytesOf elements).drop (count * size) := by
  conv_rhs => rw [← List.take_append_drop count elements, bytesOf_append]
  rw [List.drop_left' (by rw [length_bytesOf, List.length_take, Nat.min_eq_left fits])]

theorem bytesOf_take (elements : List (Element size)) {count : Nat}
    (fits : count ≤ elements.length) :
    bytesOf (elements.take count) = (bytesOf elements).take (count * size) := by
  conv_rhs => rw [← List.take_append_drop count elements, bytesOf_append]
  rw [List.take_left' (by rw [length_bytesOf, List.length_take, Nat.min_eq_left fits])]

theorem bytesOf_joined (parts : List (List (Element size))) :
    (parts.map bytesOf).reverse.flatten = bytesOf (joined parts) := by
  induction parts with
  | nil => rfl
  | cons part parts induction => simp [induction]

end Bytes

/-- Element sizes for which the bytes of every append can be counted in an `int`. -/
structure ElementSize (size : Nat) : Prop where
  pos : 0 < size
  fits : maxnelm * size < 2 ^ 31

structure Stored {size : Nat} (files : Nat → List UInt8) (header : Header)
    (chunk : List (Element size)) : Prop where
  nelm_eq : header.nelm = chunk.length
  small : chunk.length ≤ maxnelm
  inTable : header.fileno < maxVrfDatafile
  inFile : (header.start + header.nelm) * size ≤ (files header.fileno).length
  addressable : (header.start + header.nelm) * size < 2 ^ 32
  bytes : ((files header.fileno).drop (header.start * size)).take (header.nelm * size) =
    bytesOf chunk

section Storing

variable {size : Nat} {files grown : Nat → List UInt8} {header : Header}
  {chunk : List (Element size)}

def Extends (files grown : Nat → List UInt8) : Prop := ∀ fileno, files fileno <+: grown fileno

theorem Extends.refl (files : Nat → List UInt8) : Extends files files := fun _ => List.prefix_rfl

theorem Stored.mono (stored : Stored files header chunk) (extended : Extends files grown) :
    Stored grown header chunk := by
  obtain ⟨rest, isGrown⟩ := extended header.fileno
  have inFile := stored.inFile
  have bytes := stored.bytes
  rw [Nat.add_mul] at inFile
  refine ⟨stored.nelm_eq, stored.small, stored.inTable, ?_, stored.addressable, ?_⟩
  · rw [← isGrown, List.length_append, Nat.add_mul]
    omega
  · rw [← isGrown, List.drop_append_of_le_length (by omega),
      List.take_append_of_le_length (by rw [List.length_drop]; omega)]
    exact bytes

theorem w16_of_le {value : Nat} (fits : value ≤ maxnelm) : w16 value = value := by
  rw [maxnelm] at fits
  exact Nat.mod_eq_of_lt (by omega)

theorem w32_of_lt {value : Nat} (fits : value < 2 ^ 32) : w32 value = value := Nat.mod_eq_of_lt fits

theorem Stored.start_lt (sized : ElementSize size) (stored : Stored files header chunk) :
    header.start + header.nelm < 2 ^ 32 :=
  (Nat.le_mul_of_pos_right _ sized.pos).trans_lt stored.addressable

theorem Stored.trimEnd {count : Nat} (stored : Stored files header chunk)
    (fits : count ≤ chunk.length) :
    Stored files (header.trimEnd count) (chunk.take (chunk.length - count)) := by
  have nelm_eq := stored.nelm_eq
  have small := stored.small
  have isNelm : (header.trimEnd count).nelm = chunk.length - count := by
    rw [Header.trimEnd, nelm_eq]
    exact w16_of_le (by omega)
  have less : ((header.trimEnd count).start + (header.trimEnd count).nelm) * size ≤
      (header.start + header.nelm) * size := by
    rw [isNelm]
    refine Nat.mul_le_mul_right size ?_
    simp only [Header.trimEnd]
    omega
  refine ⟨?_, ?_, stored.inTable, less.trans stored.inFile, less.trans_lt stored.addressable, ?_⟩
  · rw [isNelm, List.length_take]
    omega
  · rw [List.length_take]
    omega
  · rw [isNelm, bytesOf_take _ (by omega), ← stored.bytes, List.take_take, nelm_eq,
      Nat.min_eq_left (Nat.mul_le_mul_right size (by omega))]
    rfl

theorem Stored.trimStart {nreads : Nat} (sized : ElementSize size)
    (stored : Stored files header chunk) (fits : nreads ≤ chunk.length) :
    Stored files (header.trimStart nreads) (chunk.drop (chunk.length - nreads)) := by
  have nelm_eq := stored.nelm_eq
  have small := stored.small
  have startLt := stored.start_lt sized
  have isNelm : (header.trimStart nreads).nelm = nreads := w16_of_le (by omega)
  have isStart : (header.trimStart nreads).start = header.start + (chunk.length - nreads) := by
    rw [Header.trimStart, nelm_eq]
    exact w32_of_lt (by omega)
  have same : ((header.trimStart nreads).start + (header.trimStart nreads).nelm) * size =
      (header.start + header.nelm) * size := by
    rw [isNelm, isStart, nelm_eq]
    congr 1
    omega
  refine ⟨?_, ?_, stored.inTable, same ▸ stored.inFile, same ▸ stored.addressable, ?_⟩
  · rw [isNelm, List.length_drop]
    omega
  · rw [List.length_drop]
    omega
  · have behind : nreads * size = header.nelm * size - (chunk.length - nreads) * size := by
      rw [← Nat.sub_mul, nelm_eq]
      congr 1
      omega
    rw [isNelm, isStart, bytesOf_drop _ (by omega), ← stored.bytes, List.drop_take,
      List.drop_drop, behind, Nat.add_mul]
    rfl

theorem Stored.wantedPart {skip nelm skipped taken : Nat} (sized : ElementSize size)
    (stored : Stored files header chunk) (skippedLe : skipped ≤ skip) (takenLt : taken < nelm)
    (reaches : skip - skipped < chunk.length) (counted : skipped + taken + chunk.length < 2 ^ 32) :
    Stored files (wantedPart header skip nelm skipped taken)
      (newestSlice chunk (skip - skipped)
        (min (nelm - taken) (chunk.length - (skip - skipped)))) := by
  have nelm_eq := stored.nelm_eq
  obtain ⟨header1, isHeader1, stored1⟩ : ∃ header1,
      (if skipped < skip ∧ w32 (skipped + header.nelm) > skip then
        header.trimEnd (skip - skipped) else header) = header1 ∧
      Stored files header1 (chunk.take (chunk.length - (skip - skipped))) := by
    refine ⟨_, rfl, ?_⟩
    split
    case isTrue cut => exact stored.trimEnd (by omega)
    case isFalse whole =>
      have noneLeft : skip - skipped = 0 := by
        rw [nelm_eq, w32_of_lt (by omega)] at whole
        omega
      rw [noneLeft, Nat.sub_zero, List.take_length]
      exact stored
  have length1 := stored1.nelm_eq
  rw [List.length_take, Nat.min_eq_left (by omega)] at length1
  simp only [Vrfi.wantedPart, isHeader1]
  rw [length1, w32_of_lt (by omega), newestSlice]
  split
  case isTrue tooMany =>
    have enough : nelm - taken ≤ (chunk.take (chunk.length - (skip - skipped))).length := by
      rw [List.length_take]
      omega
    have cut := stored1.trimStart sized enough
    rw [List.length_take, Nat.min_eq_left (by omega)] at cut
    rw [Nat.min_eq_left (by omega)]
    convert cut using 1
    rw [List.drop_take]
    congr 1
    omega
  case isFalse all =>
    rw [Nat.min_eq_right (by omega), Nat.sub_self, List.drop_zero]
    exact stored1

def locationOf (size : Nat) (header : Header) : Location where
  startbyte := w32 (header.start * size)
  size := w32 (header.nelm * size)
  fileno := header.fileno

theorem getData_stored (handle : DataHandle) {headers : List Header}
    {parts : List (List (Element size))}
    (stored : List.Forall₂ (Stored handle.files) headers parts) :
    getData handle (headers.map (locationOf size)) = some (some (parts.map bytesOf).flatten) := by
  induction stored with
  | nil => rfl
  | @cons header part headers parts stored _ induction =>
    have addressable := stored.addressable
    have inFile := stored.inFile
    rw [Nat.add_mul] at addressable inFile
    have length : (bytesOf part).length = header.nelm * size := by
      rw [length_bytesOf, stored.nelm_eq]
    have isStart : w32 (header.start * size) = header.start * size := w32_of_lt (by omega)
    have isSize : w32 (header.nelm * size) = header.nelm * size := w32_of_lt (by omega)
    rw [List.map_cons, getData]
    simp only [locationOf, isStart, isSize, stored.bytes, length, ne_eq, not_true_eq_false,
      if_false, if_neg (Nat.not_le.mpr stored.inTable)]
    rw [induction]
    rfl

end Storing

end Wisebot.Vrfi
