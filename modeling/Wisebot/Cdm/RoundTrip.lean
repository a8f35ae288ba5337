import Mathlib.Data.List.Infix
import Wisebot.Cdm.Fields
import Wisebot.Cdm.PutRuns

namespace Wisebot.Cdm

open Lib

/-! The documents of `mod_cdm2` read back as they were put. -/

variable {Oid : Type}

theorem length_print_le {number : Nat} (small : number < 2147483648) :
    (Decimal.print number).length ≤ 11 :=
  Decimal.length_print_le (by decide) (small.trans (by decide))

theorem ends_of_replicate (count : Nat) (rest : List UInt8) (ends : Decimal.Ends rest) :
    Decimal.Ends (List.replicate count 32 ++ rest) := by
  cases count with
  | zero => exact ends
  | succ count =>
    intro byte isHead
    obtain rfl := Option.some.inj isHead
    rfl

theorem atoi_header {parts : Parts} (shortSmall : parts.shortfields.length < 2147483648)
    (longSmall : parts.longfieldHeaders.length < 2147483648) :
    atoi (header parts) = parts.shortfields.length ∧
      atoi ((header parts).drop headerShortfieldSize) = parts.longfieldHeaders.length := by
  have shortLength := length_print_le shortSmall
  have longLength := length_print_le longSmall
  have layout : header parts = Decimal.print parts.shortfields.length ++
      (List.replicate (11 - (Decimal.print parts.shortfields.length).length) 32 ++
        ([9] ++ (Decimal.print parts.longfieldHeaders.length ++
          (List.replicate (11 - (Decimal.print parts.longfieldHeaders.length).length) 32 ++
            [10])))) := by
    rw [header, List.take_of_length_le]
    · simp [leftJustified, decimal_eq_print, headerShortfieldSize, headerLongfieldHeadersSize]
    · simp only [leftJustified, decimal_eq_print, headerShortfieldSize,
        headerLongfieldHeadersSize, headerSize, List.length_append, List.length_replicate,
        List.length_cons, List.length_nil]
      omega
  constructor
  · rw [layout]
    have noBlanks : ∀ byte ∈ ([] : List UInt8), isSpace byte = true := by simp
    exact atoi_print noBlanks shortSmall (ends_of_replicate _ _ (ends_of_tab _))
  · have behind : (header parts).drop headerShortfieldSize =
        [9] ++ (Decimal.print parts.longfieldHeaders.length ++
          (List.replicate (11 - (Decimal.print parts.longfieldHeaders.length).length) 32 ++
            [10])) := by
      rw [layout, ← List.append_assoc]
      apply List.drop_left'
      simp only [List.length_append, List.length_replicate, headerShortfieldSize]
      omega
    rw [behind]
    refine atoi_print (by simp [isSpace]) longSmall (ends_of_replicate _ _ ?_)
    intro byte isHead
    obtain rfl := Option.some.inj isHead
    rfl

theorem length_le_shortfieldBytes (entries : List ShortEntry) :
    entries.length ≤ (shortfieldBytes entries).length := by
  induction entries with
  | nil => exact Nat.zero_le _
  | cons entry rest induction =>
    have length := entry.length_bytes
    have total : (shortfieldBytes (entry :: rest)).length =
        entry.bytes.length + (shortfieldBytes rest).length := by
      simp [shortfieldBytes]
    rw [total, List.length_cons]
    omega

theorem length_le_longfieldBytes (entries : List LongEntry) :
    entries.length ≤ (longfieldBytes entries).length := by
  induction entries with
  | nil => exact Nat.zero_le _
  | cons entry rest induction =>
    have length := entry.length_bytes
    have total : (longfieldBytes (entry :: rest)).length =
        entry.bytes.length + (longfieldBytes rest).length := by
      simp [longfieldBytes]
    rw [total, List.length_cons]
    omega

theorem exists_bigCalloc (bytes : List UInt8) : ∃ padding, bigCalloc bytes = bytes ++ padding :=
  ⟨_, rfl⟩

structure Written (parts : Parts) (shorts : List ShortEntry) (longs : List LongEntry) : Prop where
  shortfields : parts.shortfields = shortfieldBytes shorts
  longfieldHeaders : parts.longfieldHeaders = longfieldBytes longs
  small : recordLength parts < 2147483648
  bodies : ∀ entry ∈ longs, entry.next ≤ parts.longfieldBodies.length ∧
    (parts.longfieldBodies.drop entry.text).take (entry.value.length + 1) = entry.value ++ [0]

def docOf (cdm : Cdm2 Oid) (docid : Nat) (parts : Parts) (shorts : List ShortEntry)
    (longs : List LongEntry) (padding : List UInt8) : CdmDoc where
  deleted := cdm.deleted docid
  dwDBNo := (cdm.index docid).dwDBNo
  offset := (cdm.index docid).offset
  data := shortfieldNamed shorts ++ (longfieldNamed longs ++ padding)
  shortfields := shortfieldsAt 0 shorts
  longfields := longfieldsAt (shortfieldBytes shorts).length longs
  longfieldBodiesStart := headerSize + (parts.shortfields.length + parts.longfieldHeaders.length)

section Placed

variable {cdm : Cdm2 Oid} {docid : Nat} {parts : Parts} {shorts : List ShortEntry}
  {longs : List LongEntry}

theorem Placed.readCdm (placed : Placed cdm docid (writeRecord parts)) {start size : Nat}
    (inside : start + size ≤ recordLength parts) :
    readCdm cdm (cdm.index docid).dwDBNo (cdm.index docid).offset start size =
      ((writeRecord parts).drop start).take size := by
  obtain ⟨dbNo, offset, element, content, -⟩ := placed
  rw [Cdm.readCdm, element]
  dsimp only
  rw [← length_writeRecord] at inside
  rw [← Mem.read_slice (cdm.files dbNo) offset inside, content]

theorem Placed.cdmGetDoc (placed : Placed cdm docid (writeRecord parts))
    (known : docid ≤ cdm.lastDocid) (written : Written parts shorts longs) :
    ∃ padding, cdmGetDoc cdm docid = .ok (docOf cdm docid parts shorts longs padding) := by
  have length : recordLength parts = headerSize + parts.shortfields.length +
    parts.longfieldHeaders.length + parts.longfieldBodies.length := rfl
  have small := written.small
  have headerRead := placed.readCdm (show 0 + headerSize ≤ recordLength parts by omega)
  have dataRead := placed.readCdm (show headerSize +
    (parts.shortfields.length + parts.longfieldHeaders.length) ≤ recordLength parts by omega)
  have isHeader : ((writeRecord parts).drop 0).take headerSize = header parts := by
    rw [writeRecord_eq, List.drop_zero]
    simp only [List.append_assoc]
    exact List.take_left' (length_header parts)
  have isData : ((writeRecord parts).drop headerSize).take
      (parts.shortfields.length + parts.longfieldHeaders.length) =
        parts.shortfields ++ parts.longfieldHeaders := by
    rw [writeRecord_eq]
    simp only [List.append_assoc]
    rw [List.drop_left' (length_header parts), ← List.append_assoc]
    exact List.take_left' (by simp)
  obtain ⟨shortLength, longLength⟩ :=
    atoi_header (show parts.shortfields.length < 2147483648 by omega)
      (show parts.longfieldHeaders.length < 2147483648 by omega)
  have docId : (cdm.index docid).docId = docid := by
    obtain ⟨dbNo, offset, element, -⟩ := placed
    rw [element]
  obtain ⟨padding, isPadded⟩ : ∃ padding,
      bigCalloc (parts.shortfields ++ parts.longfieldHeaders) =
        [] ++ (shortfieldBytes shorts ++ (longfieldBytes longs ++ padding)) := by
    obtain ⟨padding, isPadded⟩ := exists_bigCalloc (parts.shortfields ++ parts.longfieldHeaders)
    exact ⟨padding, by rw [isPadded, written.shortfields, written.longfieldHeaders,
      List.nil_append, List.append_assoc]⟩
  have shortsRead := readShortfields_entries shorts [] (longfieldBytes longs ++ padding) 0
    (Nat.lt_succ_of_le (length_le_shortfieldBytes shorts))
  have longsRead := readLongfields_entries longs
    (fun entry member => by
      have bound := (written.bodies entry member).1
      omega)
    (shortfieldNamed shorts) padding 0 (Nat.lt_succ_of_le (length_le_longfieldBytes longs))
  rw [Nat.zero_add, List.length_nil, Nat.zero_add, List.nil_append] at shortsRead
  rw [length_shortfieldNamed, Nat.zero_add] at longsRead
  have total : ((parts.shortfields.length : Int) + parts.longfieldHeaders.length).toNat =
      parts.shortfields.length + parts.longfieldHeaders.length := by omega
  refine ⟨padding, ?_⟩
  rw [Cdm.cdmGetDoc, if_neg (Nat.not_lt.mpr known), if_neg (by rw [docId]; simp)]
  simp only [headerRead, isHeader, shortLength, longLength, total, dataRead, isData, isPadded]
  rw [if_neg (by omega)]
  simp only [Int.toNat_natCast]
  rw [written.shortfields, written.longfieldHeaders]
  simp only [List.nil_append, shortsRead, longsRead, bind, Except.bind]
  rw [docOf, written.shortfields, written.longfieldHeaders]

end Placed

section Related

variable {α β : Type} {relation : α → β → Prop} {left : List α} {right : List β}

theorem related_of_mem_left (related : List.Forall₂ relation left right) :
    ∀ first ∈ left, ∃ second ∈ right, relation first second := by
  induction related with
  | nil => simp
  | @cons first second _ _ here _ induction =>
    intro other member
    rcases List.mem_cons.mp member with equal | later
    · exact ⟨second, List.mem_cons_self, equal ▸ here⟩
    · obtain ⟨found, isFound, holds⟩ := induction other later
      exact ⟨found, List.mem_cons_of_mem _ isFound, holds⟩

theorem related_of_mem_right (related : List.Forall₂ relation left right) :
    ∀ second ∈ right, ∃ first ∈ left, relation first second := by
  have flipped : List.Forall₂ (fun second first => relation first second) right left :=
    related.flip
  exact related_of_mem_left flipped

theorem map_eq_of_related {γ : Type} {first : α → γ} {second : β → γ}
    (same : ∀ a b, relation a b → first a = second b)
    (related : List.Forall₂ relation left right) : left.map first = right.map second := by
  induction related with
  | nil => rfl
  | cons here _ induction => rw [List.map_cons, List.map_cons, same _ _ here, induction]

end Related

theorem find_related {α β : Type} {relation : α → β → Prop} {fieldName : α → List UInt8}
    {entryName : β → List UInt8}
    (sameName : ∀ field entry, relation field entry → fieldName field = entryName entry)
    {fields : List α} {entries : List β} (related : List.Forall₂ relation fields entries)
    (name : List UInt8) :
    (fields.find? (fun field => decide (fieldName field = name)) = none ∧
        ∀ entry ∈ entries, entryName entry ≠ name) ∨
      ∃ field entry, fields.find? (fun field => decide (fieldName field = name)) = some field ∧
        entry ∈ entries ∧ relation field entry ∧ entryName entry = name := by
  induction related with
  | nil => exact Or.inl ⟨rfl, by simp⟩
  | @cons field entry fields entries here _ induction =>
    have same := sameName field entry here
    by_cases found : entryName entry = name
    · refine Or.inr ⟨field, entry, ?_, List.mem_cons_self, here, found⟩
      rw [List.find?_cons_of_pos (by simp [same, found])]
    · rw [List.find?_cons_of_neg (by simp [same, found])]
      rcases induction with ⟨none_found, others⟩ | ⟨other, place, isFound, member, rest⟩
      · refine Or.inl ⟨none_found, ?_⟩
        intro other member
        rcases List.mem_cons.mp member with equal | later
        · exact equal ▸ found
        · exact others other later
      · exact Or.inr ⟨other, place, isFound, List.mem_cons_of_mem _ member, rest⟩

section Lookup

variable {cdm : Cdm2 Oid} {doc : CdmDoc} {name : List UInt8} {size : Nat}

theorem cdmdocGetField_short {field : Shortfield}
    (found : doc.shortfields.find? (fun other => decide (stringAt doc.data other.name = name)) =
      some field) (positive : 0 < size) :
    cdmdocGetField cdm doc name size = getShortfield doc field size := by
  rw [cdmdocGetField, if_neg (Nat.ne_of_gt positive), found]

theorem cdmdocGetField_long {field : Longfield}
    (notShort : doc.shortfields.find? (fun other => decide (stringAt doc.data other.name = name)) =
      none)
    (found : doc.longfields.find? (fun other => decide (stringAt doc.data other.name = name)) =
      some field) (positive : 0 < size) :
    cdmdocGetField cdm doc name size = getLongfield cdm doc field size := by
  rw [cdmdocGetField, if_neg (Nat.ne_of_gt positive), notShort, found]

theorem cdmdocGetField_absent
    (notShort : doc.shortfields.find? (fun other => decide (stringAt doc.data other.name = name)) =
      none)
    (notLong : doc.longfields.find? (fun other => decide (stringAt doc.data other.name = name)) =
      none) (positive : 0 < size) :
    cdmdocGetField cdm doc name size = ⟨.fieldNotExists, [0]⟩ := by
  rw [cdmdocGetField, if_neg (Nat.ne_of_gt positive), notShort, notLong]

end Lookup

theorem getShortfield_spec {doc : CdmDoc} {field : Shortfield} {value : List UInt8}
    (isValue : stringAt doc.data field.value = value) (noZero : 0 ∉ value) {size : Nat}
    (enough : value.length + 1 < size) :
    (getShortfield doc field size).ret = .length value.length ∧
      stringAt (getShortfield doc field size).buf 0 = value := by
  have terminated := stringAt_append [] noZero []
  rw [List.nil_append, List.length_nil] at terminated
  have whole : (if value.length ≥ size then size - 1 else value.length) = value.length :=
    if_neg (by omega)
  rw [getShortfield, isValue]
  simp only [whole, if_true, List.take_length, true_and]
  exact terminated

section FieldsOf

variable {cdm : Cdm2 Oid} {docid : Nat} {parts : Parts} {shorts : List ShortEntry}
  {longs : List LongEntry}

theorem getLongfield_spec (placed : Placed cdm docid (writeRecord parts))
    (written : Written parts shorts longs) {entry : LongEntry} (member : entry ∈ longs)
    (noZero : 0 ∉ entry.value) {padding : List UInt8} {field : Longfield}
    (text : field.textPosition = entry.text) (next : field.nextPosition = entry.next)
    {size : Nat} (enough : entry.value.length + 1 < size) :
    let answer := getLongfield cdm (docOf cdm docid parts shorts longs padding) field size
    answer.ret = .length entry.value.length ∧ stringAt answer.buf 0 = entry.value := by
  obtain ⟨bound, body⟩ := written.bodies entry member
  have length : recordLength parts = headerSize + parts.shortfields.length +
    parts.longfieldHeaders.length + parts.longfieldBodies.length := rfl
  have small := written.small
  have left : toUint32 ((entry.next : Int) - entry.text) = entry.value.length + 1 := by
    rw [LongEntry.next] at bound ⊢
    rw [toUint32]
    omega
  have inside : headerSize + (parts.shortfields.length + parts.longfieldHeaders.length) +
      entry.text + (entry.value.length + 1) ≤ recordLength parts := by
    rw [LongEntry.next] at bound
    omega
  have bodiesAt : (writeRecord parts).drop (headerSize +
      (parts.shortfields.length + parts.longfieldHeaders.length) + entry.text) =
        parts.longfieldBodies.drop entry.text := by
    rw [← List.drop_drop, writeRecord_eq]
    congr 1
    apply List.drop_left'
    simp only [List.length_append, length_header]
    omega
  have read := placed.readCdm inside
  rw [bodiesAt, body] at read
  intro answer
  have isAnswer : answer = ⟨.length entry.value.length, entry.value ++ [0] ++ [0]⟩ := by
    simp only [answer, getLongfield, docOf, text, next, left]
    rw [if_neg (show ¬ entry.value.length + 1 > size by omega), if_neg (by omega), read]
    simp
  have terminated := stringAt_append [] noZero [0]
  rw [List.nil_append, List.length_nil] at terminated
  rw [isAnswer]
  exact ⟨rfl, by simpa using terminated⟩

end FieldsOf

/-- The document has the fields that are present, and each field its value. -/
def FieldConfig.ReadsBack (config : FieldConfig) (cdm : Cdm2 Oid) (docid : Nat)
    (values : FieldValues) : Prop :=
  ∃ doc, cdmGetDoc cdm docid = .ok doc ∧
    doc.fieldNames.Perm
      ((config.fields.filter fun field => (values field.name).isSome).map CdmField.name) ∧
    ∀ field ∈ config.fields, ∀ size,
      (∀ value, values field.name = some value →
        (storedValue field value).length + 1 < size →
          (cdmdocGetField cdm doc field.name size).ret =
              .length (storedValue field value).length ∧
            stringAt (cdmdocGetField cdm doc field.name size).buf 0 = storedValue field value) ∧
      (values field.name = none → 0 < size →
        (cdmdocGetField cdm doc field.name size).ret = .fieldNotExists)

/-- What a document has to meet: the bytes that the padding takes from behind its
array are zero, no value of a `SHORT` field that is written as a long one is to
be cut, and the lengths are those of an `int`. -/
structure FieldConfig.Fits (config : FieldConfig) (behind : CdmField → Nat → UInt8)
    (values : FieldValues) : Prop where
  padded : PaddedWithZeros behind (presentFields values (shortPart config.fields))
  uncut : ∀ present ∈ presentFields values (longPart config.fields),
    present.1.type = .long ∨ present.1.size = 0 ∨ present.2.length ≤ present.1.size
  small : recordLength (buildParts behind (sortFields config.fields) values) < 2147483648

section ReadBack

variable {config : FieldConfig} {behind : CdmField → Nat → UInt8} {values : FieldValues}

theorem FieldConfig.eq_of_name (config : FieldConfig) {first second : CdmField}
    (isFirst : first ∈ config.fields) (isSecond : second ∈ config.fields)
    (same : first.name = second.name) : first = second :=
  List.inj_on_of_nodup_map config.distinct isFirst isSecond same

theorem FieldConfig.plain (config : FieldConfig)
    (noNul : ∀ name value, values name = some value → 0 ∉ value) {part : List CdmField}
    (within : ∀ field ∈ part, field ∈ config.fields) : Plain (presentFields values part) := by
  rintro ⟨field, value⟩ member
  obtain ⟨inPart, isValue⟩ := mem_presentFields.mp member
  exact ⟨⟨config.noTab field (within field inPart), config.noZero field (within field inPart)⟩,
    noNul _ _ isValue⟩

theorem FieldConfig.Fits.stored_long (fits : config.Fits behind values) {present : Present}
    (member : present ∈ presentFields values (longPart config.fields)) :
    storedValue present.1 present.2 = present.2 := by
  rw [storedValue]
  split
  next limited =>
    rcases fits.uncut present member with long | unlimited | short
    · rw [limited.1] at long
      cases long
    · exact absurd unlimited limited.2
    · exact List.take_of_length_le short
  next => rfl

theorem FieldConfig.mem_parts (config : FieldConfig) (field : CdmField) :
    field ∈ shortPart config.fields ∨ field ∈ longPart config.fields ↔ field ∈ config.fields := by
  rw [← List.mem_append, (parts_perm config.fields).mem_iff]

theorem FieldConfig.Fits.entries (fits : config.Fits behind values)
    (noNul : ∀ name value, values name = some value → 0 ∉ value) :
    ∃ shorts longs,
      Written (buildParts behind (sortFields config.fields) values) shorts longs ∧
      List.Forall₂ (fun entry present => entry.name = present.1.name ∧
          entry.value = storedValue present.1 present.2)
        shorts (presentFields values (shortPart config.fields)) ∧
      List.Forall₂ (fun entry present => entry.name = present.1.name ∧
          entry.value = storedValue present.1 present.2)
        longs (presentFields values (longPart config.fields)) ∧
      ∀ entry ∈ longs, 0 ∉ entry.value := by
  have shortPlain : Plain (presentFields values (shortPart config.fields)) :=
    config.plain noNul fun field member => (config.mem_parts field).mp (Or.inl member)
  have longPlain : Plain (presentFields values (longPart config.fields)) :=
    config.plain noNul fun field member => (config.mem_parts field).mp (Or.inr member)
  obtain ⟨shorts, isShorts, shortAgree⟩ := shortEntries shortPlain fits.padded (by
    rintro ⟨field, value⟩ member
    exact short_of_mem_shortPart (mem_presentFields.mp member).1)
  obtain ⟨longs, isLongs, longAgree, bodies⟩ := longEntries longPlain []
  have isParts := buildParts_eq behind config.fields values
  have written : Written (buildParts behind (sortFields config.fields) values) shorts longs := by
    refine ⟨by rw [isParts]; exact isShorts, by rw [isParts]; exact isLongs, fits.small, ?_⟩
    rw [isParts]
    exact bodies
  refine ⟨shorts, longs, written, shortAgree, ?_, ?_⟩
  · refine (List.forall₂_iff_get.mp longAgree).elim fun sameLength agree =>
      List.forall₂_iff_get.mpr ⟨sameLength, fun place inLongs inPresents => ?_⟩
    obtain ⟨sameName, sameValue⟩ := agree place inLongs inPresents
    exact ⟨sameName, sameValue.trans (fits.stored_long (List.get_mem _ _)).symm⟩
  · intro entry member
    obtain ⟨present, isPresent, -, sameValue⟩ := related_of_mem_left longAgree entry member
    exact sameValue ▸ (longPlain present isPresent).2

theorem map_entries {fields : List CdmField} {shorts : List ShortEntry} {longs : List LongEntry}
    (shortAgree : List.Forall₂ (fun entry present => entry.name = present.1.name ∧
      entry.value = storedValue present.1 present.2) shorts
        (presentFields values (shortPart fields)))
    (longAgree : List.Forall₂ (fun entry present => entry.name = present.1.name ∧
      entry.value = storedValue present.1 present.2) longs
        (presentFields values (longPart fields))) :
    shorts.map ShortEntry.name ++ longs.map LongEntry.name =
      ((shortPart fields ++ longPart fields).filter
        fun field => (values field.name).isSome).map CdmField.name := by
  rw [map_eq_of_related (fun _ _ agree => agree.1) shortAgree,
    map_eq_of_related (fun _ _ agree => agree.1) longAgree, List.filter_append, List.map_append,
    ← map_presentFields, ← map_presentFields, List.map_map, List.map_map]
  rfl

theorem FieldConfig.Fits.readsBack (fits : config.Fits behind values)
    (noNul : ∀ name value, values name = some value → 0 ∉ value) {cdm : Cdm2 Oid} {docid : Nat}
    (placed : Placed cdm docid
      (writeRecord (buildParts behind (sortFields config.fields) values)))
    (known : docid ≤ cdm.lastDocid) : config.ReadsBack cdm docid values := by
  obtain ⟨shorts, longs, written, shortAgree, longAgree, noZero⟩ := fits.entries noNul
  obtain ⟨padding, got⟩ := placed.cdmGetDoc known written
  have shortStrings := shortfieldsAt_strings shorts [] (longfieldNamed longs ++ padding)
  have longStrings := longfieldsAt_strings longs (shortfieldNamed shorts) padding
  rw [List.length_nil, List.nil_append] at shortStrings
  rw [length_shortfieldNamed] at longStrings
  refine ⟨_, got, ?_, ?_⟩
  · have shortNames := map_eq_of_related (fun _ _ agree => agree.1) shortStrings
    have longNames := map_eq_of_related (fun _ _ agree => agree.1) longStrings
    have fieldNames : (docOf cdm docid (buildParts behind (sortFields config.fields) values) shorts
        longs padding).fieldNames =
          ((shortPart config.fields ++ longPart config.fields).filter
            fun field => (values field.name).isSome).map CdmField.name := by
      rw [CdmDoc.fieldNames, docOf]
      dsimp only
      rw [shortNames, longNames]
      exact map_entries shortAgree longAgree
    rw [fieldNames]
    exact ((parts_perm config.fields).filter _).map _
  · intro field isField size
    have presentOf : ∀ value, values field.name = some value →
        (field, value) ∈ presentFields values (shortPart config.fields) ∨
          (field, value) ∈ presentFields values (longPart config.fields) := by
      intro value isValue
      rw [mem_presentFields, mem_presentFields, ← or_and_right, config.mem_parts]
      exact ⟨isField, isValue⟩
    have fieldOf : ∀ present : Present,
        present ∈ presentFields values (shortPart config.fields) ∨
          present ∈ presentFields values (longPart config.fields) →
        present.1.name = field.name → present.1 = field ∧ values field.name = some present.2 := by
      rintro ⟨other, value⟩ member same
      rw [mem_presentFields, mem_presentFields, ← or_and_right, config.mem_parts] at member
      exact ⟨config.eq_of_name member.1 isField same, same ▸ member.2⟩
    rcases find_related (fun _ _ agree => agree.1) shortStrings field.name with
      ⟨notShort, noShort⟩ | ⟨found, entry, isFound, isEntry, ⟨-, isValue⟩, entryName⟩
    · rcases find_related (fun _ _ agree => agree.1) longStrings field.name with
        ⟨notLong, noLong⟩ | ⟨found, entry, isFound, isEntry, ⟨-, text, next⟩, entryName⟩
      · constructor
        · intro value isValue
          rcases presentOf value isValue with short | long
          · obtain ⟨entry, isEntry, agree⟩ := related_of_mem_right shortAgree _ short
            exact absurd agree.1 (noShort entry isEntry)
          · obtain ⟨entry, isEntry, agree⟩ := related_of_mem_right longAgree _ long
            exact absurd agree.1 (noLong entry isEntry)
        · intro _ positive
          rw [cdmdocGetField_absent notShort notLong positive]
      · obtain ⟨present, member, sameName, sameValue⟩ := related_of_mem_left longAgree entry isEntry
        obtain ⟨isSame, present_some⟩ := fieldOf present (Or.inr member) (sameName ▸ entryName)
        constructor
        · intro value isValue enough
          rw [present_some] at isValue
          obtain rfl := Option.some.inj isValue
          rw [isSame] at sameValue
          rw [← sameValue] at enough ⊢
          rw [cdmdocGetField_long notShort isFound (Nat.zero_lt_of_lt enough)]
          exact getLongfield_spec placed written isEntry (noZero entry isEntry) text next enough
        · intro absent
          rw [present_some] at absent
          cases absent
    · obtain ⟨present, member, sameName, sameValue⟩ := related_of_mem_left shortAgree entry isEntry
      obtain ⟨isSame, present_some⟩ := fieldOf present (Or.inl member) (sameName ▸ entryName)
      constructor
      · intro value isValue' enough
        rw [present_some] at isValue'
        obtain rfl := Option.some.inj isValue'
        rw [isSame] at sameValue
        rw [← sameValue] at enough ⊢
        rw [cdmdocGetField_short isFound (Nat.zero_lt_of_lt enough)]
        exact getShortfield_spec isValue entry.noZero enough
      · intro absent
        rw [present_some] at absent
        cases absent

end ReadBack

section Archives

variable [DecidableEq Oid]

/-- A put of a document with the values that the parser delivers, which are strings. -/
structure XmlPut (Oid : Type) (config : FieldConfig) where
  call : Put2 Oid
  values : FieldValues
  behind : CdmField → Nat → UInt8
  parsed : call.parts = some (buildParts behind (sortFields config.fields) values)
  noNul : ∀ name value, values name = some value → 0 ∉ value

abbrev StoredDocument := Nat × FieldValues

/-- A store with the documents whose puts answered that they are stored. -/
structure Archive (Oid : Type) where
  store : Store (Cdm2 Oid) Oid
  documents : List StoredDocument

/-- A put that answers `SUCCESS` or `CDM2_PUT_OID_DUPLICATED`. -/
def archiveStep (cdmFileSize : Nat) {config : FieldConfig} (archive : Archive Oid)
    (put : XmlPut Oid config) : Option (Archive Oid) :=
  match putXmldoc2 cdmFileSize archive.store.cdm put.call with
  | none => none
  | some outcome =>
    match outcome.newdocid with
    | none => none
    | some docid =>
      if outcome.answer.stored then
        some ⟨⟨outcome.state, logPut archive.store.log put.call.oid put.call.document outcome⟩,
          (docid, put.values) :: archive.documents⟩
      else none

def startArchive : Archive Oid := ⟨start2, []⟩

/-- The documents are those of the log, and the last docid is the last one that was given. -/
structure Archived (config : FieldConfig) (archive : Archive Oid) : Prop where
  sound : Sound2 archive.store
  lastDocid : archive.store.cdm.lastDocid = archive.store.cdm.did.lastDid
  logged : ∀ document ∈ archive.documents, ∃ behind, config.Fits behind document.2 ∧
    (∀ name value, document.2 name = some value → 0 ∉ value) ∧
    ∃ handed ∈ archive.store.log, handed.docid = document.1 ∧
      handed.document =
        some (writeRecord (buildParts behind (sortFields config.fields) document.2))

theorem putXmldoc2_stored {cdmFileSize : Nat} {cdm : Cdm2 Oid} {call : Put2 Oid}
    {outcome : PutOutcome (Cdm2 Oid)} (puts : putXmldoc2 cdmFileSize cdm call = some outcome)
    (isStored : outcome.answer.stored = true) :
    (nextPlace cdmFileSize cdm).1 < maxCdmFileCount ∧ call.docidFails = false ∧
      call.indexFails = false ∧ call.dataFails = none ∧
      outcome.newdocid = some (cdm.did.lastDid + 1) ∧
      outcome.state.lastDocid = cdm.did.lastDid + 1 ∧
      outcome.state.did.lastDid = cdm.did.lastDid + 1 := by
  rw [putXmldoc2] at puts
  split at puts
  next =>
    obtain rfl := Option.some.inj puts
    cases isStored
  next parts isParts =>
    split at puts
    next =>
      obtain rfl := Option.some.inj puts
      cases isStored
    next =>
      dsimp only at puts
      split at puts
      next => cases puts
      next inArray =>
        split at puts
        next =>
          obtain rfl := Option.some.inj puts
          cases isStored
        next =>
          obtain rfl := Option.some.inj puts
          rw [putLocked] at isStored ⊢
          cases docidFails : call.docidFails with
          | true =>
            rw [docidFails, if_pos rfl] at isStored
            cases isStored
          | false =>
            cases indexFails : call.indexFails with
            | true =>
              simp only [docidFails, indexFails, Bool.false_eq_true, if_false, if_true,
                PutAnswer.stored] at isStored
            | false =>
              cases dataFails : call.dataFails with
              | some count =>
                simp only [docidFails, indexFails, dataFails, Bool.false_eq_true, if_false,
                  PutAnswer.stored] at isStored
              | none =>
                simp only [Bool.false_eq_true, if_false]
                exact ⟨Nat.lt_of_not_le inArray, trivial, trivial, trivial, rfl, rfl, rfl⟩

theorem Archived.step {cdmFileSize : Nat} {config : FieldConfig} {archive next : Archive Oid}
    {put : XmlPut Oid config} (archived : Archived config archive)
    (fits : config.Fits put.behind put.values)
    (stepped : archiveStep cdmFileSize archive put = some next) : Archived config next := by
  rw [archiveStep] at stepped
  split at stepped
  next => cases stepped
  next outcome puts =>
    split at stepped
    next => cases stepped
    next docid isDocid =>
      split at stepped
      next isStored =>
        obtain rfl := Option.some.inj stepped
        obtain ⟨inArray, docidFails, indexFails, dataFails, newdocid, lastDocid, lastDid⟩ :=
          putXmldoc2_stored puts isStored
        have careful : Careful2 cdmFileSize archive.store put.call :=
          ⟨inArray, Or.inr ⟨docidFails, fun _ => ⟨indexFails, dataFails⟩⟩⟩
        have moved : step2 cdmFileSize archive.store put.call = some ⟨outcome.state,
            logPut archive.store.log put.call.oid put.call.document outcome⟩ := by
          rw [step2, puts]
          rfl
        have isDocument : put.call.document =
            writeRecord (buildParts put.behind (sortFields config.fields) put.values) := by
          rw [Put2.document, put.parsed]
          rfl
        have isLog : logPut archive.store.log put.call.oid put.call.document outcome =
            ⟨put.call.oid, docid, some put.call.document⟩ :: archive.store.log := by
          rw [logPut, isDocid, isStored]
          rfl
        refine ⟨archived.sound.step careful moved, lastDocid.trans lastDid.symm, ?_⟩
        intro document member
        dsimp only
        rw [isLog]
        rcases List.mem_cons.mp member with equal | older
        · subst equal
          exact ⟨put.behind, fits, put.noNul, _, List.mem_cons_self, rfl, by rw [isDocument]⟩
        · obtain ⟨behind, olderFits, noNul, handed, isHanded, rest⟩ :=
            archived.logged document older
          exact ⟨behind, olderFits, noNul, handed, List.mem_cons_of_mem _ isHanded, rest⟩
      next => cases stepped

theorem Archived.readsBack {config : FieldConfig} {archive : Archive Oid}
    (archived : Archived config archive) {document : StoredDocument}
    (member : document ∈ archive.documents) :
    config.ReadsBack archive.store.cdm document.1 document.2 := by
  obtain ⟨behind, fits, noNul, handed, isHanded, isDocid, isDocument⟩ :=
    archived.logged document member
  have placed := archived.sound.placed handed isHanded _ isDocument
  have range := archived.sound.recorded.range handed isHanded
  rw [isDocid] at placed range
  exact fits.readsBack noNul placed (by rw [archived.lastDocid]; exact range.2)

theorem startArchive_archived (config : FieldConfig) :
    Archived config (startArchive : Archive Oid) where
  sound := Sound2.start
  lastDocid := rfl
  logged := by simp [startArchive]

/-- In a run of puts of documents that fit, all stored, every document reads back
after every put. -/
theorem archive_run_readsBack (cdmFileSize : Nat) (config : FieldConfig) {archive : Archive Oid}
    (reached : Reach (archiveStep cdmFileSize)
      (fun _ (put : XmlPut Oid config) => config.Fits put.behind put.values) startArchive archive)
    {document : StoredDocument} (member : document ∈ archive.documents) :
    config.ReadsBack archive.store.cdm document.1 document.2 := by
  have archived : Archived config archive :=
    reached.invariant (Archived config) (startArchive_archived config)
      fun _ _ _ archived fits stepped => archived.step fits stepped
  exact archived.readsBack member

end Archives

def oneValue (name : UInt8) (value : List UInt8) : FieldValues :=
  fun other => if other = [name] then some value else none

/-- A put in which nothing fails, of a document with one field. -/
def oneFieldPut (config : FieldConfig) (oid : Nat) (behind : CdmField → Nat → UInt8)
    (name : UInt8) (value : List UInt8) (noZero : 0 ∉ value) : XmlPut Nat config where
  call :=
    { plainPut2 oid with
      parts := some (buildParts behind (sortFields config.fields) (oneValue name value)) }
  values := oneValue name value
  behind := behind
  parsed := rfl
  noNul := by
    intro other found isValue
    rw [oneValue] at isValue
    split at isValue
    next => exact Option.some.inj isValue ▸ noZero
    next => cases isValue

/-- A field `T` of 4 bytes and a long field `B`. -/
def titleAndBody : FieldConfig where
  fields := [⟨[84], .short, 4⟩, ⟨[66], .long, 0⟩]
  distinct := by decide
  noTab := by decide
  noZero := by decide

/-- Two documents, the second of which goes to a new data file. -/
theorem archive_run_readsBack_rolled : ∃ archive : Archive Nat,
    (archive.documents.map Prod.fst = [2, 1] ∧ archive.store.cdm.dbNo = 1) ∧
      ∀ document ∈ archive.documents,
        titleAndBody.ReadsBack archive.store.cdm document.1 document.2 := by
  let first : XmlPut Nat titleAndBody :=
    oneFieldPut titleAndBody 0 (fun _ _ => 0) 84 [65, 66, 67, 68, 69, 70] (by decide)
  let second : XmlPut Nat titleAndBody :=
    oneFieldPut titleAndBody 1 (fun _ _ => 0) 66 [65, 66] (by decide)
  have firstFits : titleAndBody.Fits first.behind first.values := by
    refine ⟨fun _ _ _ _ _ => rfl, ?_, ?_⟩ <;> decide +kernel
  have secondFits : titleAndBody.Fits second.behind second.values := by
    refine ⟨fun _ _ _ _ _ => rfl, ?_, ?_⟩ <;> decide +kernel
  have reached : ∃ archive : Archive Nat,
      Reach (archiveStep 1) (fun _ (put : XmlPut Nat titleAndBody) =>
        titleAndBody.Fits put.behind put.values) startArchive archive ∧
      archive.documents.map Prod.fst = [2, 1] ∧ archive.store.cdm.dbNo = 1 :=
    ⟨_, (Reach.start.step first firstFits rfl).step second secondFits rfl, rfl, rfl⟩
  obtain ⟨archive, run, isRun⟩ := reached
  exact ⟨archive, isRun, fun document member =>
    archive_run_readsBack 1 titleAndBody run member⟩

/-- A field `T` of 40 bytes. -/
def wideTitle : FieldConfig where
  fields := [⟨[84], .short, 40⟩]
  distinct := by decide
  noTab := by decide
  noZero := by decide

/-- The long fields `A`, `B` and `D` and the short fields `C` and `E` of 2 bytes. -/
def mixedFields : FieldConfig where
  fields := [⟨[65], .long, 0⟩, ⟨[66], .long, 0⟩, ⟨[67], .short, 2⟩, ⟨[68], .long, 0⟩,
    ⟨[69], .short, 2⟩]
  distinct := by decide
  noTab := by decide
  noZero := by decide

def readNames (cdm : Cdm2 Nat) (docid : Nat) : Option (List (List UInt8)) :=
  (cdmGetDoc cdm docid).toOption.map CdmDoc.fieldNames

def readField (cdm : Cdm2 Nat) (docid : Nat) (name : List UInt8) (size : Nat) :
    Option FieldRet :=
  (cdmGetDoc cdm docid).toOption.map fun doc => (cdmdocGetField cdm doc name size).ret

/-- A padding of more than 32 bytes makes a field of what stands behind the array of
zeros; a short field that stays behind a long one is not cut. -/
theorem archive_not_readsBack :
    (∃ archive : Archive Nat,
      Reach (archiveStep 1000) (fun _ (_ : XmlPut Nat wideTitle) => True) startArchive archive ∧
      ∃ document ∈ archive.documents,
        ¬ wideTitle.ReadsBack archive.store.cdm document.1 document.2) ∧
    ∃ archive : Archive Nat,
      Reach (archiveStep 1000) (fun _ (_ : XmlPut Nat mixedFields) => True) startArchive archive ∧
      ∃ document ∈ archive.documents,
        ¬ mixedFields.ReadsBack archive.store.cdm document.1 document.2 := by
  constructor
  · let put : XmlPut Nat wideTitle :=
      oneFieldPut wideTitle 0 (fun _ _ => 88) 84 [65] (by decide)
    obtain ⟨archive, run, documents⟩ : ∃ archive, archiveStep 1000 startArchive put = some archive ∧
        archive.documents = [(1, put.values)] := ⟨_, rfl, rfl⟩
    have names : (archiveStep 1000 startArchive put).bind
        (fun archive => readNames archive.store.cdm 1) =
          some [[84], List.replicate 8 88] := by
      decide +kernel
    refine ⟨archive, Reach.start.step put trivial run, (1, put.values), by simp [documents], ?_⟩
    rintro ⟨doc, got, perm, -⟩
    rw [run, Option.bind_some, readNames, got] at names
    have length := perm.length_eq
    rw [show doc.fieldNames = [[84], List.replicate 8 88] from Option.some.inj names] at length
    exact absurd length (by decide)
  · let put : XmlPut Nat mixedFields :=
      oneFieldPut mixedFields 0 (fun _ _ => 0) 67 [49, 50, 51] (by decide)
    obtain ⟨archive, run, documents⟩ : ∃ archive, archiveStep 1000 startArchive put = some archive ∧
        archive.documents = [(1, put.values)] := ⟨_, rfl, rfl⟩
    have field : (archiveStep 1000 startArchive put).bind
        (fun archive => readField archive.store.cdm 1 [67] 100) = some (.length 3) := by
      decide +kernel
    refine ⟨archive, Reach.start.step put trivial run, (1, put.values), by simp [documents], ?_⟩
    rintro ⟨doc, got, -, values⟩
    rw [run, Option.bind_some, readField, got] at field
    obtain ⟨isLength, -⟩ := (values ⟨[67], .short, 2⟩ (by decide) 100).1 [49, 50, 51] rfl (by decide)
    have isThree : (cdmdocGetField archive.store.cdm doc [67] 100).ret = .length 3 :=
      Option.some.inj field
    exact absurd (isThree.symm.trans isLength) (by decide)

end Wisebot.Cdm
