import Wisebot.Cdm.Laid

namespace Wisebot.Cdm

open Lib

/-! `cdmdoc_get_field_by_bytepos` of `mod_cdm2` and of `mod_cdm3`. -/

variable {Oid : Type}

/-! ### `mod_cdm2` -/

/-- An `int` as a `size_t`. -/
def toSize (value : Int) : Nat := (value % 18446744073709551616).toNat

def getShortfieldFrom (doc : CdmDoc) (field : Shortfield) (bytepos size : Nat) : FieldAnswer :=
  let requiredLength := toSize ((stringAt doc.data field.value).length - bytepos)
  let copyLength := if requiredLength ≥ size then size - 1 else requiredLength
  ⟨if copyLength = requiredLength then .length copyLength else .notEnoughBuffer,
    (doc.data.drop (field.value + bytepos)).take copyLength ++ [0]⟩

def getLongfieldFrom (cdm : Cdm2 Oid) (doc : CdmDoc) (field : Longfield) (bytepos size : Nat) :
    FieldAnswer :=
  let bodyLeft := toUint32 ((field.nextPosition : Int) - field.textPosition - bytepos)
  let readSize := if bodyLeft > size then size else bodyLeft
  let read := readCdm cdm doc.dwDBNo doc.offset
    (doc.longfieldBodiesStart + field.textPosition + bytepos) readSize
  if size ≤ bodyLeft then ⟨.notEnoughBuffer, read.set (readSize - 1) 0⟩
  else ⟨.length ((bodyLeft : Int) - 1), read ++ [0]⟩

def cdmdocGetFieldByBytepos (cdm : Cdm2 Oid) (doc : CdmDoc) (fieldname : List UInt8)
    (bytepos size : Nat) : FieldAnswer :=
  if size = 0 then ⟨.notEnoughBuffer, []⟩
  else
    match doc.shortfields.find? fun field => decide (stringAt doc.data field.name = fieldname) with
    | some field => getShortfieldFrom doc field bytepos size
    | none =>
      match doc.longfields.find? fun field =>
          decide (stringAt doc.data field.name = fieldname) with
      | some field => getLongfieldFrom cdm doc field bytepos size
      | none => ⟨.fieldNotExists, [0]⟩

/-! ### `mod_cdm3` -/

def isTrimmed (byte : UInt8) : Bool := byte = 32 || byte = 9 || byte = 10 || byte = 13

/-- `_trim`: where the value starts and its length. -/
def trim (value : List UInt8) : Nat × Nat :=
  let front := (value.takeWhile isTrimmed).length
  if front = value.length then (0, 0)
  else (front, ((value.drop front).reverse.dropWhile isTrimmed).length)

/-- `strncpy` from a place of the memory on. -/
def strncpy (memory : Nat → UInt8) : (place count : Nat) → List UInt8
  | _, 0 => []
  | place, count + 1 =>
    if memory place = 0 then List.replicate (count + 1) 0
    else memory place :: strncpy memory (place + 1) count

/-- What the parser gives for a path: the memory from `field_value` on and `field_length`. -/
abbrev RetrieveField := List UInt8 → Option ((Nat → UInt8) × Nat)

def fieldBytes (memory : Nat → UInt8) (length : Nat) : List UInt8 :=
  (List.range length).map memory

def copyTrimmed (memory : Nat → UInt8) (length bytepos size : Nat) : FieldAnswer :=
  let value := trim (fieldBytes memory length)
  let count := if value.2 > size - 1 then size - 1 else value.2
  ⟨.length count, strncpy memory (value.1 + bytepos) count ++ [0]⟩

/-- `none` is `FAIL`, where nothing is written. -/
def cdm3GetFieldByBytepos (retrieveField : RetrieveField) (fieldRootName fieldname : List UInt8)
    (bytepos size : Nat) : Option FieldAnswer :=
  (retrieveField (47 :: fieldRootName ++ 47 :: fieldname)).map fun found =>
    copyTrimmed found.1 found.2 bytepos size

def trimmed (value : List UInt8) : List UInt8 := (value.drop (trim value).1).take (trim value).2

/-- The buffer has the part of the value that fits, ended with a zero. -/
def Copies (value : List UInt8) (bytepos size : Nat) (buf : List UInt8) : Prop :=
  buf.length ≤ size ∧ ∃ behind, buf = (value.drop bytepos).take (size - 1) ++ 0 :: behind

/-- What `mod_cdm2` returns is the length of the part, if it fits. -/
def Slices (value : List UInt8) (bytepos size : Nat) (answer : FieldAnswer) : Prop :=
  Copies value bytepos size answer.buf ∧
    answer.ret = if value.length - bytepos < size then .length (value.length - bytepos : Nat)
      else .notEnoughBuffer

variable {value : List UInt8} {bytepos size : Nat}

theorem toSize_sub {left right : Nat} (within : right ≤ left) (small : left < 2147483648) :
    toSize ((left : Int) - right) = left - right := by
  rw [toSize]
  omega

theorem take_stringAt (data : List UInt8) (place : Nat) {bytepos count : Nat}
    (inside : bytepos + count ≤ (stringAt data place).length) :
    (data.drop (place + bytepos)).take count = ((stringAt data place).drop bytepos).take count := by
  have isPrefix : stringAt data place <+: data.drop place := List.takeWhile_prefix _
  obtain ⟨behind, isData⟩ := isPrefix
  rw [← List.drop_drop, ← isData, List.drop_append_of_le_length (by omega),
    List.take_append_of_le_length (by rw [List.length_drop]; omega)]

theorem getShortfieldFrom_slices {doc : CdmDoc} {field : Shortfield}
    (isValue : stringAt doc.data field.value = value) (small : value.length < 2147483648)
    (inside : bytepos ≤ value.length) (positive : 0 < size) :
    Slices value bytepos size (getShortfieldFrom doc field bytepos size) := by
  have required := toSize_sub inside small
  have copied : ∀ count, bytepos + count ≤ value.length →
      (doc.data.drop (field.value + bytepos)).take count = (value.drop bytepos).take count := by
    intro count within
    rw [take_stringAt doc.data field.value (isValue ▸ within), isValue]
  rw [getShortfieldFrom, isValue, required, Slices, Copies]
  by_cases fits : value.length - bytepos < size
  · simp only [if_neg (Nat.not_le.mpr fits), if_pos fits, if_true, and_true]
    rw [copied _ (by omega)]
    have whole : (value.drop bytepos).take (value.length - bytepos) = value.drop bytepos :=
      List.take_of_length_le (by rw [List.length_drop])
    refine ⟨?_, [], ?_⟩
    · rw [whole, List.length_append, List.length_drop, List.length_singleton]
      omega
    · rw [whole, List.take_of_length_le (by rw [List.length_drop]; omega)]
  · simp only [if_pos (Nat.le_of_not_lt fits), if_neg fits]
    rw [copied _ (by omega), if_neg (by omega)]
    refine ⟨⟨?_, [], rfl⟩, rfl⟩
    rw [List.length_append, List.length_take, List.length_singleton]
    omega

theorem set_last {α : Type} {list : List α} {count : Nat} (fits : count < list.length) (last : α) :
    (list.take (count + 1)).set count last = list.take count ++ [last] := by
  rw [List.take_succ_eq_append_getElem fits, List.set_append_right _ _ (List.length_take_le _ _)]
  simp [Nat.min_eq_left fits.le]

theorem getLongfieldFrom_spec {cdm : Cdm2 Oid} {docid : Nat} {parts : Parts}
    {shorts : List ShortEntry} {longs : List LongEntry} (laid : Laid cdm docid parts shorts longs)
    {entry : LongEntry} (member : entry ∈ longs) {padding : List UInt8} {field : Longfield}
    (text : field.textPosition = entry.text) (next : field.nextPosition = entry.next)
    (inside : bytepos ≤ entry.value.length) (positive : 0 < size) :
    let answer := getLongfieldFrom cdm (docOf cdm docid parts shorts longs padding) field bytepos
      size
    Copies entry.value bytepos size answer.buf ∧
      answer.ret = if entry.value.length - bytepos + 1 < size then
        .length (entry.value.length - bytepos : Nat) else .notEnoughBuffer := by
  obtain ⟨bound, -⟩ := laid.written.bodies entry member
  have total : recordLength parts = headerSize + parts.shortfields.length +
    parts.longfieldHeaders.length + parts.longfieldBodies.length := rfl
  have small := laid.written.small
  have left : toUint32 ((entry.next : Int) - entry.text - bytepos) =
      entry.value.length - bytepos + 1 := by
    rw [LongEntry.next] at bound ⊢
    rw [toUint32]
    omega
  have dropped : (entry.value ++ [0]).drop bytepos = entry.value.drop bytepos ++ [0] :=
    List.drop_append_of_le_length inside
  intro answer
  by_cases fits : entry.value.length - bytepos + 1 < size
  · have read := laid.readBody member
      (show bytepos + (entry.value.length - bytepos + 1) ≤ entry.value.length + 1 by omega)
    have isAnswer : answer = ⟨.length (entry.value.length - bytepos : Nat),
        entry.value.drop bytepos ++ [0] ++ [0]⟩ := by
      simp only [answer, getLongfieldFrom, docOf, text, next, left]
      rw [if_neg (by omega), if_neg (by omega), read, dropped,
        List.take_of_length_le (by simp)]
      simp
    rw [isAnswer, if_pos fits]
    refine ⟨⟨?_, [0], ?_⟩, rfl⟩
    · simp only [List.length_append, List.length_drop, List.length_singleton]
      omega
    · rw [List.take_of_length_le (by rw [List.length_drop]; omega), List.append_assoc]
      rfl
  · obtain ⟨count, rfl⟩ := Nat.exists_eq_succ_of_ne_zero positive.ne'
    have read := laid.readBody member
      (show bytepos + (count + 1) ≤ entry.value.length + 1 by omega)
    have isAnswer : answer = ⟨.notEnoughBuffer, (entry.value.drop bytepos).take count ++ [0]⟩ := by
      simp only [answer, getLongfieldFrom, docOf, text, next, left]
      rw [if_pos (by omega)]
      have isSize : (if entry.value.length - bytepos + 1 > count + 1 then count + 1
          else entry.value.length - bytepos + 1) = count + 1 := by
        split <;> omega
      rw [isSize, read, dropped, Nat.add_sub_cancel,
        set_last (by rw [List.length_append, List.length_drop, List.length_singleton]; omega),
        List.take_append_of_le_length (by rw [List.length_drop]; omega)]
    rw [isAnswer, if_neg fits]
    refine ⟨⟨?_, [], rfl⟩, rfl⟩
    rw [List.length_append, List.length_take, List.length_singleton]
    omega

/-! ### Copies of `mod_cdm3` -/

variable {memory : Nat → UInt8} {length : Nat}

theorem trim_within (value : List UInt8) : (trim value).1 + (trim value).2 ≤ value.length := by
  rw [trim]
  split
  · exact Nat.zero_le _
  · have front := (List.takeWhile_sublist isTrimmed (l := value)).length_le
    have back := (List.dropWhile_sublist isTrimmed
      (l := (value.drop (value.takeWhile isTrimmed).length).reverse)).length_le
    rw [List.length_reverse, List.length_drop] at back
    omega

def bytesFrom (memory : Nat → UInt8) (place count : Nat) : List UInt8 :=
  (List.range' place count).map memory

theorem length_bytesFrom (place count : Nat) : (bytesFrom memory place count).length = count := by
  rw [bytesFrom, List.length_map, List.length_range']

theorem drop_bytesFrom (place count skipped : Nat) :
    (bytesFrom memory place count).drop skipped =
      bytesFrom memory (place + skipped) (count - skipped) := by
  rw [bytesFrom, ← List.map_drop, List.drop_range', Nat.mul_one]
  rfl

theorem take_bytesFrom (place count taken : Nat) :
    (bytesFrom memory place count).take taken = bytesFrom memory place (min taken count) := by
  rw [bytesFrom, ← List.map_take]
  by_cases more : taken ≤ count
  · rw [List.take_range'_of_length_ge more, Nat.min_eq_left more]
    rfl
  · rw [List.take_range'_of_length_le (Nat.le_of_not_le more),
      Nat.min_eq_right (Nat.le_of_not_le more)]
    rfl

theorem bytesFrom_succ (place count : Nat) :
    bytesFrom memory place (count + 1) = memory place :: bytesFrom memory (place + 1) count := by
  rw [bytesFrom, List.range'_succ]
  rfl

theorem trimmed_fieldBytes (memory : Nat → UInt8) (length : Nat) :
    trimmed (fieldBytes memory length) =
      bytesFrom memory (trim (fieldBytes memory length)).1 (trim (fieldBytes memory length)).2 := by
  have within := trim_within (fieldBytes memory length)
  have isBytes : fieldBytes memory length = bytesFrom memory 0 length := by
    rw [fieldBytes, List.range_eq_range']
    rfl
  rw [isBytes, length_bytesFrom] at within
  rw [trimmed, isBytes, drop_bytesFrom, take_bytesFrom, Nat.zero_add, Nat.min_eq_left (by omega)]

theorem strncpy_add {place count more : Nat} (noZero : 0 ∉ bytesFrom memory place count) :
    strncpy memory place (count + more) =
      bytesFrom memory place count ++ strncpy memory (place + count) more := by
  induction count generalizing place with
  | zero => rw [Nat.zero_add, Nat.add_zero]; rfl
  | succ count induction =>
    rw [bytesFrom_succ] at noZero ⊢
    have nonzero : memory place ≠ 0 := fun isZero => noZero (isZero ▸ List.mem_cons_self)
    rw [Nat.succ_add, strncpy, if_neg nonzero,
      induction fun member => noZero (List.mem_cons_of_mem _ member), List.cons_append,
      Nat.succ_add_eq_add_succ]

theorem length_strncpy (place count : Nat) : (strncpy memory place count).length = count := by
  induction count generalizing place with
  | zero => rfl
  | succ count induction =>
    rw [strncpy]
    split
    · exact List.length_replicate
    · rw [List.length_cons, induction]

theorem strncpy_eq {place count : Nat} (noZero : 0 ∉ bytesFrom memory place count) :
    strncpy memory place count = bytesFrom memory place count := by
  have added := @strncpy_add memory place count 0 noZero
  rwa [Nat.add_zero, strncpy, List.append_nil] at added

theorem copyTrimmed_iff (noZero : 0 ∉ trimmed (fieldBytes memory length))
    (inside : bytepos ≤ (trimmed (fieldBytes memory length)).length) (positive : 0 < size) :
    Copies (trimmed (fieldBytes memory length)) bytepos size
        (copyTrimmed memory length bytepos size).buf ↔
      bytepos = 0 ∨ size - 1 ≤ (trimmed (fieldBytes memory length)).length - bytepos ∨
        memory ((trim (fieldBytes memory length)).1 +
          (trimmed (fieldBytes memory length)).length) = 0 := by
  rw [trimmed_fieldBytes] at noZero inside ⊢
  rw [length_bytesFrom] at inside ⊢
  rw [copyTrimmed]
  generalize (trim (fieldBytes memory length)).1 = start at *
  generalize (trim (fieldBytes memory length)).2 = count at *
  dsimp only
  generalize isKept : (if count > size - 1 then size - 1 else count) = kept
  have keeps : kept ≤ count ∧ kept ≤ size - 1 ∧ (kept = count ∨ kept = size - 1) := by
    rw [← isKept]
    split <;> omega
  have isSlice : ((bytesFrom memory start count).drop bytepos).take (size - 1) =
      bytesFrom memory (start + bytepos) (min (size - 1) (count - bytepos)) := by
    rw [drop_bytesFrom, take_bytesFrom]
  have sliceNoZero : 0 ∉ bytesFrom memory (start + bytepos) (count - bytepos) := by
    rw [← drop_bytesFrom]
    exact fun member => noZero (List.mem_of_mem_drop member)
  have fits : (strncpy memory (start + bytepos) kept ++ [0]).length ≤ size := by
    rw [List.length_append, length_strncpy, List.length_singleton]
    omega
  rw [Copies, and_iff_right fits, isSlice]
  by_cases short : kept ≤ count - bytepos
  · have keptNoZero : 0 ∉ bytesFrom memory (start + bytepos) kept := by
      have isTaken := @take_bytesFrom memory (start + bytepos) (count - bytepos) kept
      rw [Nat.min_eq_left short] at isTaken
      rw [← isTaken]
      exact fun member => sliceNoZero (List.mem_of_mem_take member)
    have isMin : min (size - 1) (count - bytepos) = kept := by omega
    rw [strncpy_eq keptNoZero, isMin]
    exact ⟨fun _ => by omega, fun _ => ⟨[], rfl⟩⟩
  · obtain ⟨more, isMore⟩ : ∃ more, kept = count - bytepos + (more + 1) :=
      ⟨kept - (count - bytepos) - 1, by omega⟩
    have isMin : min (size - 1) (count - bytepos) = count - bytepos := by omega
    have place : start + bytepos + (count - bytepos) = start + count := by omega
    rw [isMore, strncpy_add sliceNoZero, isMin, place, List.append_assoc]
    simp only [List.append_cancel_left_eq]
    rw [strncpy]
    constructor
    · rintro ⟨behind, isCopy⟩
      refine .inr (.inr ?_)
      by_contra nonzero
      rw [if_neg nonzero] at isCopy
      exact nonzero (List.cons_eq_cons.mp isCopy).1
    · intro ends
      have isZero : memory (start + count) = 0 := by
        rcases ends with atStart | enough | isZero
        · omega
        · omega
        · exact isZero
      rw [if_pos isZero]
      exact ⟨_, rfl⟩

section Fields

variable {cdm : Cdm2 Oid} {doc : CdmDoc} {name : List UInt8}

theorem cdmdocGetFieldByBytepos_short {field : Shortfield}
    (found : doc.shortfields.find? (fun other => decide (stringAt doc.data other.name = name)) =
      some field) (positive : 0 < size) :
    cdmdocGetFieldByBytepos cdm doc name bytepos size =
      getShortfieldFrom doc field bytepos size := by
  rw [cdmdocGetFieldByBytepos, if_neg positive.ne', found]

theorem cdmdocGetFieldByBytepos_long {field : Longfield}
    (notShort : doc.shortfields.find? (fun other => decide (stringAt doc.data other.name = name)) =
      none)
    (found : doc.longfields.find? (fun other => decide (stringAt doc.data other.name = name)) =
      some field) (positive : 0 < size) :
    cdmdocGetFieldByBytepos cdm doc name bytepos size =
      getLongfieldFrom cdm doc field bytepos size := by
  rw [cdmdocGetFieldByBytepos, if_neg positive.ne', notShort, found]

variable {docid : Nat} {parts : Parts} {shorts : List ShortEntry} {longs : List LongEntry}

theorem Laid.slices_short (laid : Laid cdm docid parts shorts longs) (padding : List UInt8)
    {entry : ShortEntry} (member : entry ∈ shorts) (inside : bytepos ≤ entry.value.length)
    (positive : 0 < size) :
    Slices entry.value bytepos size (cdmdocGetFieldByBytepos cdm
      (docOf cdm docid parts shorts longs padding) entry.name bytepos size) := by
  obtain ⟨field, isFound, isValue⟩ := laid.find_short padding member
  rw [cdmdocGetFieldByBytepos_short isFound positive]
  refine getShortfieldFrom_slices isValue ?_ inside positive
  have small := laid.written.small
  have isShort := laid.written.shortfields
  have piece : entry.bytes.length ≤ (shortfieldBytes shorts).length := by
    rw [shortfieldBytes]
    exact (List.sublist_flatten_of_mem (List.mem_map_of_mem member)).length_le
  rw [← isShort] at piece
  rw [recordLength] at small
  have length := entry.length_bytes
  omega

theorem Laid.slices_long (laid : Laid cdm docid parts shorts longs) (padding : List UInt8)
    {entry : LongEntry} (member : entry ∈ longs) (inside : bytepos ≤ entry.value.length)
    (positive : 0 < size) :
    Slices entry.value bytepos size (cdmdocGetFieldByBytepos cdm
        (docOf cdm docid parts shorts longs padding) entry.name bytepos size) ↔
      size ≠ entry.value.length - bytepos + 1 := by
  obtain ⟨notShort, field, isFound, text, next⟩ := laid.find_long padding member
  obtain ⟨copies, isRet⟩ := @getLongfieldFrom_spec _ bytepos size cdm docid parts shorts longs laid
    entry member padding field text next inside positive
  rw [cdmdocGetFieldByBytepos_long notShort isFound positive, Slices, isRet,
    and_iff_right copies]
  by_cases fits : entry.value.length - bytepos + 1 < size
  · rw [if_pos fits, if_pos (by omega)]
    exact ⟨fun _ => by omega, fun _ => rfl⟩
  · rw [if_neg fits]
    by_cases isExact : size = entry.value.length - bytepos + 1
    · rw [if_pos (by omega)]
      exact ⟨fun same => (by cases same), fun other => absurd isExact other⟩
    · rw [if_neg (by omega)]
      exact ⟨fun _ => isExact, fun _ => rfl⟩

end Fields

/-- Part of a field is read as a slice of its value, where `mod_cdm2` has room for a byte
more than a long value and its zero, and `mod_cdm3` starts at the value or fills the buffer. -/
theorem getFieldByBytepos_slices_iff [DecidableEq Oid] (cdmFileSize : Nat) (config : FieldConfig)
    {archive : Archive Oid}
    (reached : Reach (archiveStep cdmFileSize)
      (fun _ (put : XmlPut Oid config) => config.Fits put.behind put.values) startArchive archive) :
    (∀ document ∈ archive.documents, ∃ doc, cdmGetDoc archive.store.cdm document.1 = .ok doc ∧
      ∀ field ∈ config.fields, ∀ value, document.2 field.name = some value →
        ∀ bytepos ≤ (storedValue field value).length, ∀ size, 0 < size →
          (Slices (storedValue field value) bytepos size
              (cdmdocGetFieldByBytepos archive.store.cdm doc field.name bytepos size) ↔
            field ∈ shortPart config.fields ∨
              size ≠ (storedValue field value).length - bytepos + 1)) ∧
    ∀ (retrieveField : RetrieveField) (fieldRootName fieldname : List UInt8)
      (memory : Nat → UInt8) (length : Nat),
      retrieveField (47 :: fieldRootName ++ 47 :: fieldname) = some (memory, length) →
        0 ∉ trimmed (fieldBytes memory length) →
          ∀ bytepos ≤ (trimmed (fieldBytes memory length)).length, ∀ size, 0 < size →
            ((∃ answer, cdm3GetFieldByBytepos retrieveField fieldRootName fieldname bytepos size =
                some answer ∧
                Copies (trimmed (fieldBytes memory length)) bytepos size answer.buf) ↔
              bytepos = 0 ∨ size - 1 ≤ (trimmed (fieldBytes memory length)).length - bytepos ∨
                memory ((trim (fieldBytes memory length)).1 +
                  (trimmed (fieldBytes memory length)).length) = 0) := by
  constructor
  · intro document member
    have archived : Archived config archive :=
      reached.invariant (Archived config) (startArchive_archived config)
        fun _ _ _ archived fits stepped => archived.step fits stepped
    obtain ⟨parts, shorts, longs, laid, stands⟩ := archived.laid member
    obtain ⟨padding, isDoc⟩ := laid.got
    refine ⟨_, isDoc, ?_⟩
    intro field isField value isValue bytepos inside size positive
    by_cases isShort : field ∈ shortPart config.fields
    · obtain ⟨entry, isEntry, sameName, sameValue⟩ := related_of_mem_right stands.shorts
        (field, value) (mem_presentFields.mpr ⟨isShort, isValue⟩)
      rw [← sameValue] at inside ⊢
      rw [← sameName]
      exact ⟨fun _ => .inl isShort, fun _ => laid.slices_short padding isEntry inside positive⟩
    · have isLong := (config.longPart_iff isField).mpr isShort
      obtain ⟨entry, isEntry, sameName, sameValue⟩ := related_of_mem_right stands.longs
        (field, value) (mem_presentFields.mpr ⟨isLong, isValue⟩)
      rw [← sameValue] at inside ⊢
      rw [← sameName, laid.slices_long padding isEntry inside positive]
      exact ⟨.inr, fun holds => holds.resolve_left isShort⟩
  · intro retrieveField fieldRootName fieldname memory length isFound noZero bytepos inside size
      positive
    rw [cdm3GetFieldByBytepos, isFound, Option.map_some, ← copyTrimmed_iff noZero inside positive]
    constructor
    · rintro ⟨answer, same, copies⟩
      exact Option.some.inj same ▸ copies
    · exact fun copies => ⟨_, rfl, copies⟩

/-! ### A document with the body `AB` -/

theorem body_noZero : (0 : UInt8) ∉ ([65, 66] : List UInt8) := by decide

def bodyPut : XmlPut Nat titleAndBody :=
  oneFieldPut titleAndBody 0 (fun _ _ => 0) 66 [65, 66] body_noZero

theorem bodyPut_fits : titleAndBody.Fits bodyPut.behind bodyPut.values := by
  refine ⟨fun _ _ _ _ _ => rfl, ?_, ?_⟩ <;> decide +kernel

theorem getFieldByBytepos_slices_body : ∃ archive : Archive Nat,
    archive.documents = [(1, bodyPut.values)] ∧
      ∃ doc, cdmGetDoc archive.store.cdm 1 = .ok doc ∧
        Slices [65, 66] 1 5 (cdmdocGetFieldByBytepos archive.store.cdm doc [66] 1 5) := by
  obtain ⟨archive, run, documents⟩ : ∃ archive, archiveStep 1000 startArchive bodyPut =
      some archive ∧ archive.documents = [(1, bodyPut.values)] := ⟨_, rfl, rfl⟩
  have reached : Reach (archiveStep 1000) (fun _ (put : XmlPut Nat titleAndBody) =>
      titleAndBody.Fits put.behind put.values) startArchive archive :=
    Reach.start.step bodyPut bodyPut_fits run
  obtain ⟨doc, isDoc, slices⟩ := (getFieldByBytepos_slices_iff 1000 titleAndBody reached).1
    (1, bodyPut.values) (by simp [documents])
  exact ⟨archive, documents, doc, isDoc,
    (slices ⟨[66], .long, 0⟩ (by decide) [65, 66] rfl 1 (by decide) 5 (by decide)).mpr
      (.inr (by decide))⟩

def readFieldFrom (cdm : Cdm2 Nat) (docid : Nat) (name : List UInt8) (bytepos size : Nat) :
    Option FieldRet :=
  (cdmGetDoc cdm docid).toOption.map fun doc =>
    (cdmdocGetFieldByBytepos cdm doc name bytepos size).ret

/-- `AB]]>`, the value and what is behind it. -/
def bodyMemory (place : Nat) : UInt8 := [65, 66, 93, 93, 62].getD place 0

/-- A buffer that the long value `AB` and its zero fill is not enough; from position 1 on
the value `AB` is copied as `B]`. -/
theorem getFieldByBytepos_not_slices :
    (∃ archive : Archive Nat,
      Reach (archiveStep 1000) (fun _ (put : XmlPut Nat titleAndBody) =>
        titleAndBody.Fits put.behind put.values) startArchive archive ∧
      archive.documents = [(1, bodyPut.values)] ∧
      ∀ doc, cdmGetDoc archive.store.cdm 1 = .ok doc →
        ¬ Slices [65, 66] 0 3 (cdmdocGetFieldByBytepos archive.store.cdm doc [66] 0 3)) ∧
    ∀ answer, cdm3GetFieldByBytepos (fun _ => some (bodyMemory, 2)) [68] [66] 1 10 = some answer →
      ¬ Copies [65, 66] 1 10 answer.buf := by
  constructor
  · obtain ⟨archive, run, documents⟩ : ∃ archive, archiveStep 1000 startArchive bodyPut =
        some archive ∧ archive.documents = [(1, bodyPut.values)] := ⟨_, rfl, rfl⟩
    have field : (archiveStep 1000 startArchive bodyPut).bind
        (fun archive => readFieldFrom archive.store.cdm 1 [66] 0 3) =
          some .notEnoughBuffer := by
      decide +kernel
    refine ⟨archive, Reach.start.step bodyPut bodyPut_fits run, documents, ?_⟩
    rintro doc isDoc ⟨-, isRet⟩
    rw [run, Option.bind_some, readFieldFrom, isDoc] at field
    have isNot : (cdmdocGetFieldByBytepos archive.store.cdm doc [66] 0 3).ret =
        .notEnoughBuffer := Option.some.inj field
    rw [isRet] at isNot
    exact absurd isNot (by decide)
  · rintro answer same ⟨-, behind, isCopy⟩
    obtain rfl := Option.some.inj same
    have second := congrArg (fun bytes => bytes[1]?) isCopy
    exact absurd (show some (93 : UInt8) = some 0 from second) (by decide)

end Wisebot.Cdm
