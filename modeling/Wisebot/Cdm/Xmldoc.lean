import Wisebot.Cdm.Bytepos
import Wisebot.SimpleXml.RoundTrip

namespace Wisebot.Cdm

open Lib

/-! `cdm_get_xmldoc` of `mod_cdm2`: a document as XML text in a buffer of `size` bytes. -/

/-- What is in the buffer after a step: the text so far, which a zero ends, or what is
returned early. A step that writes behind the buffer is outside. -/
inductive Exported where
  | outside
  | stopped (ret : FieldRet)
  | written (text : List UInt8)
deriving DecidableEq

def Exported.bind (exported : Exported) (next : List UInt8 → Exported) : Exported :=
  match exported with
  | outside => outside
  | stopped ret => stopped ret
  | written text => next text

@[simp] theorem Exported.written_bind (text : List UInt8) (next : List UInt8 → Exported) :
    (Exported.written text).bind next = next text := rfl

@[simp] theorem Exported.stopped_bind (ret : FieldRet) (next : List UInt8 → Exported) :
    (Exported.stopped ret).bind next = .stopped ret := rfl

@[simp] theorem Exported.outside_bind (next : List UInt8 → Exported) :
    Exported.outside.bind next = .outside := rfl

/-- `COPY_STRING`: `copy_string` is given `size` and not what is left. -/
def copyString (size : Nat) (text buf : List UInt8) : Exported :=
  if size < buf.length + (min text.length (size - 1) + 1) then .outside
  else if text.length < size then .written (buf ++ text)
  else .stopped .notEnoughBuffer

variable {Oid : Type}

/-- `cdmdoc_get_field` into what is left of the buffer. -/
def copyField (cdm : Cdm2 Oid) (doc : CdmDoc) (size : Nat) (fieldname buf : List UInt8) :
    Exported :=
  let answer := cdmdocGetFieldByBytepos cdm doc fieldname 0 (size - buf.length)
  if size < buf.length + answer.buf.length then .outside
  else
    match answer.ret with
    | .length count =>
      if count < 0 then .stopped (.length count)
      else .written (buf ++ answer.buf.take count.toNat)
    | ret => .stopped ret

/-- The round of the loops over the short and over the long fields. -/
def exportField (cdm : Cdm2 Oid) (doc : CdmDoc) (size : Nat) (fieldname buf : List UInt8) :
    Exported :=
  (copyString size [60] buf).bind fun buf =>
    (copyString size fieldname buf).bind fun buf =>
      (copyString size (62 :: SimpleXml.cdataStart) buf).bind fun buf =>
        (copyField cdm doc size fieldname buf).bind fun buf =>
          (copyString size (SimpleXml.cdataEnd ++ [60, 47]) buf).bind fun buf =>
            (copyString size fieldname buf).bind fun buf => copyString size [62, 10] buf

def exportFields (cdm : Cdm2 Oid) (doc : CdmDoc) (size : Nat) :
    (fieldnames : List (List UInt8)) → (buf : List UInt8) → Exported
  | [], buf => .written buf
  | fieldname :: rest, buf =>
    (exportField cdm doc size fieldname buf).bind fun buf => exportFields cdm doc size rest buf

def exportDoc (fieldRootName : List UInt8) (cdm : Cdm2 Oid) (doc : CdmDoc) (size : Nat) :
    Exported :=
  (copyString size [60] []).bind fun buf =>
    (copyString size fieldRootName buf).bind fun buf =>
      (copyString size [62, 10] buf).bind fun buf =>
        (exportFields cdm doc size doc.fieldNames buf).bind fun buf =>
          (copyString size [60, 47] buf).bind fun buf =>
            (copyString size fieldRootName buf).bind fun buf => copyString size [62, 10] buf

def cdmGetXmldoc (fieldRootName : List UInt8) (cdm : Cdm2 Oid) (docid size : Nat) :
    Except GetError Exported := do
  let doc ← cdmGetDoc cdm docid
  .ok (exportDoc fieldRootName cdm doc size)

/-- A field of a document; a long one needs room for a byte more. -/
structure XmlField where
  name : List UInt8
  value : List UInt8
  long : Bool

/-- `<name><![CDATA[` -/
def XmlField.front (field : XmlField) : List UInt8 := 60 :: (field.name ++ 62 :: SimpleXml.cdataStart)

def XmlField.text (field : XmlField) : List UInt8 :=
  field.front ++ (field.value ++ (SimpleXml.cdataEnd ++ 60 :: 47 :: (field.name ++ [62, 10])))

theorem XmlField.value_lt_text (field : XmlField) :
    field.front.length + (field.value.length + if field.long then 1 else 0) <
      field.text.length := by
  have isLong : (if field.long = true then 1 else 0) ≤ 1 := by split <;> decide
  rw [XmlField.text]
  simp only [List.length_append, List.length_cons, List.length_nil, SimpleXml.cdataEnd]
  omega

def rootFront (fieldRootName : List UInt8) : List UInt8 := 60 :: (fieldRootName ++ [62, 10])

def rootEnd (fieldRootName : List UInt8) : List UInt8 := 60 :: 47 :: (fieldRootName ++ [62, 10])

def xmlText (fieldRootName : List UInt8) (fields : List XmlField) : List UInt8 :=
  rootFront fieldRootName ++ (fields.flatMap XmlField.text ++ rootEnd fieldRootName)

/-- A buffer of `size` bytes ends inside the value of a field, or for a long one directly
behind it, when the fields stand behind a text of that length. -/
def EndsInValue (start : Nat) (fields : List XmlField) (size : Nat) : Prop :=
  ∃ before field behind, fields = before ++ field :: behind ∧
    start + (before.flatMap XmlField.text ++ field.front).length < size ∧
      size ≤ start + (before.flatMap XmlField.text ++ field.front).length +
        (field.value.length + if field.long then 1 else 0)

variable {size : Nat} {text buf : List UInt8}

theorem copyString_fits (fits : buf.length + text.length < size) :
    copyString size text buf = .written (buf ++ text) := by
  rw [copyString, if_neg (by omega), if_pos (by omega)]

/-- A piece that does not fit is written behind the buffer, if it is not the first one. -/
theorem copyString_overruns (behind : 0 < buf.length) (inside : buf.length < size)
    (tooLong : size ≤ buf.length + text.length) : copyString size text buf = .outside := by
  rw [copyString, if_pos (by omega)]

theorem copyString_bind (behind : 0 < buf.length) (inside : buf.length < size)
    (next : List UInt8 → Exported) :
    (copyString size text buf).bind next =
      if buf.length + text.length < size then next (buf ++ text) else .outside := by
  split
  case isTrue fits => rw [copyString_fits fits, Exported.written_bind]
  case isFalse full =>
    rw [copyString_overruns behind inside (Nat.le_of_not_lt full), Exported.outside_bind]

theorem copyString_bind_bind {first second : List UInt8} (behind : 0 < buf.length)
    (inside : buf.length < size) (next : List UInt8 → Exported) :
    ((copyString size first buf).bind fun buf => (copyString size second buf).bind next) =
      (copyString size (first ++ second) buf).bind next := by
  rw [copyString_bind behind inside, copyString_bind behind inside, List.length_append]
  split
  case isTrue fits =>
    have longer : (buf ++ first).length = buf.length + first.length := List.length_append
    rw [copyString_bind (by omega) (by omega), longer, List.append_assoc]
    simp only [Nat.add_assoc]
  case isFalse full => rw [if_neg (by omega)]

theorem copyString_bind_copyString {first second : List UInt8} (behind : 0 < buf.length)
    (inside : buf.length < size) :
    ((copyString size first buf).bind fun buf => copyString size second buf) =
      copyString size (first ++ second) buf := by
  rw [copyString_bind behind inside]
  split
  case isTrue fits =>
    have longer : (buf ++ first).length = buf.length + first.length := List.length_append
    by_cases both : buf.length + (first ++ second).length < size
    · rw [copyString_fits both, copyString_fits, List.append_assoc]
      rw [List.length_append] at both
      omega
    · rw [copyString_overruns behind inside (Nat.le_of_not_lt both),
        copyString_overruns (by omega) (by omega)]
      rw [List.length_append] at both
      omega
  case isFalse full =>
    rw [copyString_overruns behind inside]
    rw [List.length_append]
    omega

def Reads (cdm : Cdm2 Oid) (doc : CdmDoc) (field : XmlField) : Prop :=
  ∀ size buf, buf.length < size → copyField cdm doc size field.name buf =
    if buf.length + (field.value.length + if field.long then 1 else 0) < size then
      .written (buf ++ field.value)
    else .stopped .notEnoughBuffer

section Fields

variable {cdm : Cdm2 Oid} {doc : CdmDoc} {field : XmlField}

theorem exportField_eq (reads : Reads cdm doc field) (behind : 0 < buf.length)
    (inside : buf.length < size) :
    exportField cdm doc size field.name buf =
      if buf.length + field.text.length < size then .written (buf ++ field.text)
      else if buf.length + field.front.length < size ∧
          size ≤ buf.length + field.front.length +
            (field.value.length + if field.long then 1 else 0) then
        .stopped .notEnoughBuffer
      else .outside := by
  have isFront : [60] ++ field.name ++ 62 :: SimpleXml.cdataStart = field.front := rfl
  have isText : field.text = field.front ++ field.value ++
      (SimpleXml.cdataEnd ++ [60, 47] ++ field.name ++ [62, 10]) := by
    simp [XmlField.text]
  have isLength : field.text.length = field.front.length + field.value.length +
      (SimpleXml.cdataEnd ++ [60, 47] ++ field.name ++ [62, 10]).length := by
    rw [isText, List.length_append, List.length_append]
  have isLong : (if field.long = true then 1 else 0) ≤ 1 := by split <;> decide
  have isTail : 5 ≤ (SimpleXml.cdataEnd ++ [60, 47] ++ field.name ++ [62, 10]).length := by
    simp only [List.length_append, List.length_cons, List.length_nil, SimpleXml.cdataEnd]
    omega
  have front : (buf ++ field.front).length = buf.length + field.front.length :=
    List.length_append
  have valued : (buf ++ field.front ++ field.value).length =
      buf.length + field.front.length + field.value.length := by
    rw [List.length_append, front]
  rw [exportField, copyString_bind_bind behind inside, copyString_bind_bind behind inside, isFront,
    copyString_bind behind inside]
  by_cases opens : buf.length + field.front.length < size
  case neg => rw [if_neg opens, if_neg (by omega), if_neg (fun both => opens both.1)]
  case pos =>
    rw [if_pos opens, reads size _ (by rw [front]; exact opens), front]
    by_cases reaches : buf.length + field.front.length +
        (field.value.length + if field.long = true then 1 else 0) < size
    case neg =>
      rw [if_neg reaches, Exported.stopped_bind, if_neg (by omega), if_pos ⟨opens, by omega⟩]
    case pos =>
      rw [if_pos reaches, Exported.written_bind,
        copyString_bind_bind (by omega) (by omega), copyString_bind_copyString (by omega) (by omega),
        isLength]
      by_cases fits : buf.length + (field.front.length + field.value.length +
          (SimpleXml.cdataEnd ++ [60, 47] ++ field.name ++ [62, 10]).length) < size
      · rw [if_pos fits, copyString_fits (by omega), isText]
        simp only [List.append_assoc]
      · rw [if_neg fits, if_neg (by omega), copyString_overruns (by omega) (by omega) (by omega)]

theorem endsInValue_cons {start : Nat} {fields : List XmlField} :
    EndsInValue start (field :: fields) size ↔
      (start + field.front.length < size ∧
        size ≤ start + field.front.length + (field.value.length + if field.long then 1 else 0)) ∨
      EndsInValue (start + field.text.length) fields size := by
  constructor
  · rintro ⟨before, other, behind, isFields, opens, ends⟩
    cases before with
    | nil =>
      obtain ⟨rfl, rfl⟩ := List.cons_eq_cons.mp isFields
      exact .inl ⟨opens, ends⟩
    | cons first before =>
      obtain ⟨rfl, rfl⟩ := List.cons_eq_cons.mp isFields
      rw [List.flatMap_cons, List.append_assoc, List.length_append] at opens ends
      exact .inr ⟨before, other, behind, rfl, by omega, by omega⟩
  · rintro (⟨opens, ends⟩ | ⟨before, other, behind, rfl, opens, ends⟩)
    · exact ⟨[], field, fields, rfl, opens, ends⟩
    · refine ⟨field :: before, other, behind, rfl, ?_⟩
      rw [List.flatMap_cons, List.append_assoc, List.length_append]
      exact ⟨by omega, by omega⟩

theorem not_endsInValue_of_full {start : Nat} {fields : List XmlField} (full : size ≤ start) :
    ¬ EndsInValue start fields size := by
  rintro ⟨before, other, behind, -, opens, -⟩
  omega

theorem exportFields_spec {fields : List XmlField} (reads : ∀ field ∈ fields, Reads cdm doc field)
    (behind : 0 < buf.length) (inside : buf.length < size) :
    (buf.length + (fields.flatMap XmlField.text).length < size →
      exportFields cdm doc size (fields.map XmlField.name) buf =
        .written (buf ++ fields.flatMap XmlField.text)) ∧
    (EndsInValue buf.length fields size →
      exportFields cdm doc size (fields.map XmlField.name) buf = .stopped .notEnoughBuffer) ∧
    (¬ buf.length + (fields.flatMap XmlField.text).length < size →
      ¬ EndsInValue buf.length fields size →
        exportFields cdm doc size (fields.map XmlField.name) buf = .outside) := by
  induction fields generalizing buf with
  | nil =>
    refine ⟨fun _ => ?_, ?_, fun full => absurd inside full⟩
    · rw [List.flatMap_nil, List.append_nil]
      rfl
    · rintro ⟨before, other, behind, isNil, -⟩
      exact absurd isNil.symm (by simp)
  | cons field fields induction =>
    have isExport := exportField_eq (reads field List.mem_cons_self) behind inside
    rw [endsInValue_cons, List.flatMap_cons, List.length_append, ← Nat.add_assoc, List.map_cons,
      exportFields, isExport]
    by_cases fits : buf.length + field.text.length < size
    · have longer : (buf ++ field.text).length = buf.length + field.text.length :=
        List.length_append
      obtain ⟨whole, ends, isOver⟩ := @induction (buf ++ field.text)
        (fun other member => reads other (List.mem_cons_of_mem _ member)) (by omega) (by omega)
      have notHere : ¬ (buf.length + field.front.length < size ∧
          size ≤ buf.length + field.front.length +
            (field.value.length + if field.long = true then 1 else 0)) := by
        have shorter := field.value_lt_text
        omega
      rw [longer] at whole ends isOver
      rw [if_pos fits, Exported.written_bind, or_iff_right notHere, ← List.append_assoc]
      exact ⟨whole, ends, isOver⟩
    · rw [if_neg fits, or_iff_left (not_endsInValue_of_full (Nat.le_of_not_lt fits))]
      refine ⟨fun more => by omega, fun here => ?_, fun _ notHere => ?_⟩
      · rw [if_pos here, Exported.stopped_bind]
      · rw [if_neg notHere, Exported.outside_bind]

theorem exportDoc_spec {fieldRootName : List UInt8} {fields : List XmlField}
    (isNames : doc.fieldNames = fields.map XmlField.name)
    (reads : ∀ field ∈ fields, Reads cdm doc field) (positive : 0 < size) :
    ((xmlText fieldRootName fields).length < size →
      exportDoc fieldRootName cdm doc size = .written (xmlText fieldRootName fields)) ∧
    (size = 1 ∨ EndsInValue (rootFront fieldRootName).length fields size →
      exportDoc fieldRootName cdm doc size = .stopped .notEnoughBuffer) ∧
    (¬ (xmlText fieldRootName fields).length < size → size ≠ 1 →
      ¬ EndsInValue (rootFront fieldRootName).length fields size →
        exportDoc fieldRootName cdm doc size = .outside) := by
  have isText : (xmlText fieldRootName fields).length = (rootFront fieldRootName).length +
      (fields.flatMap XmlField.text).length + (rootEnd fieldRootName).length := by
    rw [xmlText, List.length_append, List.length_append, Nat.add_assoc]
  have some_front : 3 ≤ (rootFront fieldRootName).length := by
    simp only [rootFront, List.length_cons, List.length_append, List.length_nil]
    omega
  by_cases one : size = 1
  · subst one
    refine ⟨fun fits => by omega, fun _ => rfl, fun _ notOne => absurd rfl notOne⟩
  · have first : copyString size [60] [] = .written [60] := copyString_fits (by simp; omega)
    have isFront : ([60] : List UInt8) ++ (fieldRootName ++ [62, 10]) = rootFront fieldRootName := rfl
    have isLength : ([60] : List UInt8).length + (fieldRootName ++ [62, 10]).length =
        (rootFront fieldRootName).length := by
      rw [← isFront]
      exact List.length_append.symm
    rw [exportDoc, first, Exported.written_bind, or_iff_right one,
      copyString_bind_bind (by simp) (by simp; omega), copyString_bind (by simp) (by simp; omega),
      isFront, isLength, isNames]
    by_cases opens : (rootFront fieldRootName).length < size
    · obtain ⟨whole, ends, isOver⟩ := exportFields_spec reads (by omega) opens
      have isEnd : [60, 47] ++ fieldRootName ++ [62, 10] = rootEnd fieldRootName := rfl
      have body : (rootFront fieldRootName ++ fields.flatMap XmlField.text).length =
          (rootFront fieldRootName).length + (fields.flatMap XmlField.text).length :=
        List.length_append
      rw [if_pos opens]
      refine ⟨fun fits => ?_, fun isEnds => ?_, fun full notOne notEnds => ?_⟩
      · rw [whole (by omega), Exported.written_bind, copyString_bind_bind (by omega) (by omega),
          copyString_bind_copyString (by omega) (by omega), isEnd, copyString_fits (by omega),
          xmlText, List.append_assoc]
      · rw [ends isEnds, Exported.stopped_bind]
      · by_cases fits : (rootFront fieldRootName).length +
            (fields.flatMap XmlField.text).length < size
        · rw [whole fits, Exported.written_bind, copyString_bind_bind (by omega) (by omega),
            copyString_bind_copyString (by omega) (by omega), isEnd,
            copyString_overruns (by omega) (by omega) (by omega)]
        · rw [isOver fits notEnds, Exported.outside_bind]
    · rw [if_neg opens]
      exact ⟨fun fits => by omega,
        fun ends => absurd ends (not_endsInValue_of_full (Nat.le_of_not_lt opens)),
        fun _ _ _ => rfl⟩

theorem copyField_eq {name value : List UInt8} {more : Nat} (inside : buf.length < size)
    (copies : Copies value 0 (size - buf.length)
      (cdmdocGetFieldByBytepos cdm doc name 0 (size - buf.length)).buf)
    (isRet : (cdmdocGetFieldByBytepos cdm doc name 0 (size - buf.length)).ret =
      if value.length + more < size - buf.length then .length value.length
      else .notEnoughBuffer) :
    copyField cdm doc size name buf =
      if buf.length + (value.length + more) < size then .written (buf ++ value)
      else .stopped .notEnoughBuffer := by
  obtain ⟨short, behind, isBuf⟩ := copies
  rw [copyField, if_neg (by omega), isRet]
  by_cases fits : value.length + more < size - buf.length
  · have isTaken : (cdmdocGetFieldByBytepos cdm doc name 0 (size - buf.length)).buf.take
        value.length = value := by
      have whole : value.take (size - buf.length - 1) = value := List.take_of_length_le (by omega)
      rw [isBuf, List.drop_zero, whole]
      exact List.take_left' rfl
    rw [if_pos fits, if_pos (show buf.length + (value.length + more) < size by omega)]
    simp only [Int.toNat_natCast, isTaken]
    rw [if_neg (by omega)]
  · rw [if_neg fits, if_neg (show ¬ buf.length + (value.length + more) < size by omega)]

end Fields

def entryFields (shorts : List ShortEntry) (longs : List LongEntry) : List XmlField :=
  shorts.map (fun entry => ⟨entry.name, entry.value, false⟩) ++
    longs.map fun entry => ⟨entry.name, entry.value, true⟩

section Laid

variable {cdm : Cdm2 Oid} {docid : Nat} {parts : Parts} {shorts : List ShortEntry}
  {longs : List LongEntry}

theorem Laid.reads (laid : Laid cdm docid parts shorts longs) (padding : List UInt8) :
    ∀ field ∈ entryFields shorts longs,
      Reads cdm (docOf cdm docid parts shorts longs padding) field := by
  intro field member size buf inside
  have positive : 0 < size - buf.length := Nat.sub_pos_of_lt inside
  rcases List.mem_append.mp member with isShort | isLong
  · obtain ⟨entry, isEntry, rfl⟩ := List.mem_map.mp isShort
    obtain ⟨copies, isRet⟩ := laid.slices_short padding isEntry (Nat.zero_le _) positive
    exact copyField_eq inside copies isRet
  · obtain ⟨entry, isEntry, rfl⟩ := List.mem_map.mp isLong
    obtain ⟨notShort, field, isFound, text, next⟩ := laid.find_long padding isEntry
    obtain ⟨copies, isRet⟩ := getLongfieldFrom_spec laid isEntry text next
      (Nat.zero_le entry.value.length) positive
    rw [← cdmdocGetFieldByBytepos_long notShort isFound positive] at copies isRet
    exact copyField_eq inside copies isRet

theorem Laid.fieldNames (padding : List UInt8) :
    (docOf cdm docid parts shorts longs padding).fieldNames =
      (entryFields shorts longs).map XmlField.name := by
  have shortNames := map_eq_of_related (fun _ _ agree => agree.1)
    (@Laid.shortStrings _ cdm docid parts shorts longs padding)
  have longNames := map_eq_of_related (fun _ _ agree => agree.1)
    (@Laid.longStrings _ cdm docid parts shorts longs padding)
  rw [CdmDoc.fieldNames, shortNames, longNames, entryFields, List.map_append, List.map_map,
    List.map_map]
  rfl

end Laid

def documentFields (config : FieldConfig) (values : FieldValues) : List XmlField :=
  (presentFields values (shortPart config.fields)).map
      (fun present => ⟨present.1.name, storedValue present.1 present.2, false⟩) ++
    (presentFields values (longPart config.fields)).map
      fun present => ⟨present.1.name, storedValue present.1 present.2, true⟩

theorem Stands.entryFields_eq {config : FieldConfig} {values : FieldValues}
    {shorts : List ShortEntry} {longs : List LongEntry}
    (stands : Stands config values shorts longs) :
    entryFields shorts longs = documentFields config values := by
  rw [entryFields, documentFields]
  congr 1
  · exact map_eq_of_related (fun _ _ agree => by rw [agree.1, agree.2]) stands.shorts
  · exact map_eq_of_related (fun _ _ agree => by rw [agree.1, agree.2]) stands.longs

structure Found (text : List UInt8) (found : SimpleXml.Field) (field : XmlField) : Prop where
  name : found.name = field.name
  length : found.length = field.value.length
  value : (text.drop found.value).take field.value.length = field.value

/-- Names within the limits of the parser and values without `]]>`. -/
structure Parsable (fieldRootName : List UInt8) (fields : List XmlField) : Prop where
  root : SimpleXml.RootName fieldRootName
  names : ∀ field ∈ fields, SimpleXml.FieldName field.name
  values : ∀ field ∈ fields, ¬ SimpleXml.cdataEnd <:+: field.value
  few : fields.length ≤ SimpleXml.maxFieldNum

theorem space_newline : SimpleXml.Space [10] := by decide

/-- The new line of the piece in front of it is the white space of a field. -/
def writtenField (field : XmlField) (isName : SimpleXml.FieldName field.name)
    (free : ¬ SimpleXml.cdataEnd <:+: field.value) : SimpleXml.WrittenField where
  space := [10]
  name := field.name
  written := [] ++ (SimpleXml.cdataStart ++ (field.value ++ SimpleXml.cdataEnd ++ []))
  offset := 9
  value := field.value
  isSpaces := space_newline
  isName := isName
  content := .cdata SimpleXml.space_nil free SimpleXml.space_nil

theorem writtenField_bytes {field : XmlField} (isName : SimpleXml.FieldName field.name)
    (free : ¬ SimpleXml.cdataEnd <:+: field.value) (rest : List UInt8) :
    (writtenField field isName free).bytes ++ 10 :: rest = 10 :: (field.text ++ rest) := by
  simp [SimpleXml.WrittenField.bytes, writtenField, XmlField.text, XmlField.front]

theorem exists_writtenFields {fields : List XmlField}
    (names : ∀ field ∈ fields, SimpleXml.FieldName field.name)
    (values : ∀ field ∈ fields, ¬ SimpleXml.cdataEnd <:+: field.value) :
    ∃ written : List SimpleXml.WrittenField,
      List.Forall₂ (fun written field => written.name = field.name ∧ written.value = field.value)
        written fields ∧
      ∀ rest, (written.map SimpleXml.WrittenField.bytes).flatten ++ 10 :: rest =
        10 :: (fields.flatMap XmlField.text ++ rest) := by
  induction fields with
  | nil => exact ⟨[], .nil, fun rest => rfl⟩
  | cons field fields induction =>
    obtain ⟨written, agree, isText⟩ := induction
      (fun other member => names other (List.mem_cons_of_mem _ member))
      (fun other member => values other (List.mem_cons_of_mem _ member))
    refine ⟨writtenField field (names field List.mem_cons_self)
      (values field List.mem_cons_self) :: written, .cons ⟨rfl, rfl⟩ agree, fun rest => ?_⟩
    rw [List.map_cons, List.flatten_cons, List.append_assoc, isText, writtenField_bytes,
      List.flatMap_cons, List.append_assoc]

theorem xmlText_reparsed {fieldRootName : List UInt8} {fields : List XmlField}
    (parsable : Parsable fieldRootName fields) :
    ∃ parser, SimpleXml.parselen (xmlText fieldRootName fields) = .ended parser ∧
      parser.rootnode = fieldRootName ∧
      List.Forall₂ (Found (xmlText fieldRootName fields)) parser.fields fields := by
  obtain ⟨writtenFields, agree, isBody⟩ := exists_writtenFields parsable.names parsable.values
  let written : SimpleXml.WrittenDocument :=
    { rootnode := fieldRootName
      fields := writtenFields
      space := [10]
      behind := [10]
      isRoot := parsable.root
      isSpaces := space_newline
      few := agree.length_eq ▸ parsable.few }
  have isText : written.bytes = xmlText fieldRootName fields := by
    have body := isBody (rootEnd fieldRootName)
    simp only [written, SimpleXml.WrittenDocument.bytes, xmlText, rootFront, rootEnd,
      List.cons_append, List.append_assoc, List.nil_append] at body ⊢
    rw [body]
  obtain ⟨recorded, all, isParser⟩ := SimpleXml.parselen_written written
  rw [isText] at all isParser
  refine ⟨_, isParser, rfl, related_trans (fun found source field records same => ?_) all agree⟩
  obtain ⟨sameName, sameValue⟩ := same
  exact ⟨records.name.trans sameName, sameValue ▸ records.length, sameValue ▸ records.value⟩

/-- The text is bounded by the buffer, is there when it fits with its zero, and has the
fields of the document. -/
structure Exports (fieldRootName : List UInt8) (fields : List XmlField) (size : Nat)
    (exported : Exported) : Prop where
  inside : exported ≠ .outside
  notEnough : exported = .stopped .notEnoughBuffer ↔
    size < (xmlText fieldRootName fields).length + 1
  whole : (xmlText fieldRootName fields).length + 1 ≤ size →
    exported = .written (xmlText fieldRootName fields)
  reparsed : ∀ text, exported = .written text → Parsable fieldRootName fields →
    ∃ parser, SimpleXml.parselen text = .ended parser ∧ parser.rootnode = fieldRootName ∧
      List.Forall₂ (Found text) parser.fields fields

theorem exports_iff {cdm : Cdm2 Oid} {doc : CdmDoc} {fieldRootName : List UInt8}
    {fields : List XmlField} (isNames : doc.fieldNames = fields.map XmlField.name)
    (reads : ∀ field ∈ fields, Reads cdm doc field) (positive : 0 < size) :
    Exports fieldRootName fields size (exportDoc fieldRootName cdm doc size) ↔
      (xmlText fieldRootName fields).length < size ∨ size = 1 ∨
        EndsInValue (rootFront fieldRootName).length fields size := by
  obtain ⟨whole, ends, isOver⟩ := @exportDoc_spec _ size cdm doc fieldRootName fields isNames reads
    positive
  by_cases fits : (xmlText fieldRootName fields).length < size
  · refine ⟨fun _ => .inl fits, fun _ => ?_⟩
    rw [whole fits]
    refine ⟨fun isOutside => (by cases isOutside), ⟨fun isStopped => (by cases isStopped),
      fun less => absurd fits (by omega)⟩, fun _ => rfl, fun text isText parsable => ?_⟩
    cases isText
    exact xmlText_reparsed parsable
  · rw [or_iff_right fits]
    by_cases noticed : size = 1 ∨ EndsInValue (rootFront fieldRootName).length fields size
    · refine ⟨fun _ => noticed, fun _ => ?_⟩
      rw [ends noticed]
      exact ⟨fun isOutside => (by cases isOutside), ⟨fun _ => by omega, fun _ => rfl⟩,
        fun more => absurd more (by omega), fun text isText => (by cases isText)⟩
    · refine ⟨fun exports => absurd ?_ exports.inside, fun holds => absurd holds noticed⟩
      exact isOver fits (fun one => noticed (.inl one)) fun isEnd => noticed (.inr isEnd)

/-- A stored document is exported within the buffer, and reads back, exactly if its text
fits or the buffer ends in the value of a field. -/
theorem getXmldoc_exports_iff [DecidableEq Oid] (cdmFileSize : Nat) (config : FieldConfig)
    (fieldRootName : List UInt8) {archive : Archive Oid}
    (reached : Reach (archiveStep cdmFileSize)
      (fun _ (put : XmlPut Oid config) => config.Fits put.behind put.values) startArchive archive)
    {document : StoredDocument} (member : document ∈ archive.documents) (positive : 0 < size) :
    ∃ exported, cdmGetXmldoc fieldRootName archive.store.cdm document.1 size = .ok exported ∧
      (Exports fieldRootName (documentFields config document.2) size exported ↔
        (xmlText fieldRootName (documentFields config document.2)).length < size ∨ size = 1 ∨
          EndsInValue (rootFront fieldRootName).length (documentFields config document.2) size) := by
  have archived : Archived config archive :=
    reached.invariant (Archived config) (startArchive_archived config)
      fun _ _ _ archived fits stepped => archived.step fits stepped
  obtain ⟨parts, shorts, longs, laid, stands⟩ := archived.laid member
  obtain ⟨padding, isDoc⟩ := laid.got
  refine ⟨exportDoc fieldRootName archive.store.cdm _ size, by rw [cdmGetXmldoc, isDoc]; rfl, ?_⟩
  rw [← stands.entryFields_eq]
  exact exports_iff (Laid.fieldNames padding) (laid.reads padding) positive

theorem getXmldoc_exports_body : ∃ archive : Archive Nat,
    archive.documents = [(1, bodyPut.values)] ∧
      ∃ exported, cdmGetXmldoc [68] archive.store.cdm 1 40 = .ok exported ∧
        Exports [68] (documentFields titleAndBody bodyPut.values) 40 exported := by
  obtain ⟨archive, run, documents⟩ : ∃ archive, archiveStep 1000 startArchive bodyPut =
      some archive ∧ archive.documents = [(1, bodyPut.values)] := ⟨_, rfl, rfl⟩
  have reached : Reach (archiveStep 1000) (fun _ (put : XmlPut Nat titleAndBody) =>
      titleAndBody.Fits put.behind put.values) startArchive archive :=
    Reach.start.step bodyPut bodyPut_fits run
  have member : (1, bodyPut.values) ∈ archive.documents := by simp [documents]
  obtain ⟨exported, isExported, exports⟩ :=
    getXmldoc_exports_iff 1000 titleAndBody [68] reached member (show 0 < 40 by decide)
  exact ⟨archive, documents, exported, isExported, exports.mpr (.inl (by decide +kernel))⟩

/-- The text has 31 bytes: with its zero it is a byte longer than the buffer. -/
theorem getXmldoc_overruns : ∃ archive : Archive Nat,
    Reach (archiveStep 1000) (fun _ (put : XmlPut Nat titleAndBody) =>
      titleAndBody.Fits put.behind put.values) startArchive archive ∧
    archive.documents = [(1, bodyPut.values)] ∧
      ∀ exported, cdmGetXmldoc [68] archive.store.cdm 1 31 = .ok exported →
        ¬ Exports [68] (documentFields titleAndBody bodyPut.values) 31 exported := by
  obtain ⟨archive, run, documents⟩ : ∃ archive, archiveStep 1000 startArchive bodyPut =
      some archive ∧ archive.documents = [(1, bodyPut.values)] := ⟨_, rfl, rfl⟩
  have isOutside : (archiveStep 1000 startArchive bodyPut).bind
      (fun archive => (cdmGetXmldoc [68] archive.store.cdm 1 31).toOption) =
        some .outside := by
    decide +kernel
  refine ⟨archive, Reach.start.step bodyPut bodyPut_fits run, documents, ?_⟩
  intro exported isExported exports
  rw [run, Option.bind_some, isExported] at isOutside
  exact exports.inside (Option.some.inj isOutside)

end Wisebot.Cdm
