import Mathlib.Data.List.Perm.Basic
import Wisebot.Cdm.Parsing

namespace Wisebot.Cdm

open Lib

/-! The parts of a document as entries, one for each field that is present. -/

structure FieldConfig where
  fields : List CdmField
  distinct : (fields.map CdmField.name).Nodup
  noTab : ∀ field ∈ fields, 9 ∉ field.name
  noZero : ∀ field ∈ fields, 0 ∉ field.name

def storedValue (field : CdmField) (value : List UInt8) : List UInt8 :=
  if field.type = .short ∧ field.size ≠ 0 then value.take field.size else value

theorem sortFieldsFrom_perm (fuel i mark : Nat) (fields : List CdmField) :
    (sortFieldsFrom fuel i mark fields).Perm fields := by
  induction fuel generalizing i mark fields with
  | zero => exact List.Perm.refl _
  | succ fuel induction =>
    rw [sortFieldsFrom]
    split
    next =>
      split
      next field other isField isOther =>
        obtain ⟨inList, rfl⟩ := List.getElem?_eq_some_iff.mp isField
        obtain ⟨markInList, rfl⟩ := List.getElem?_eq_some_iff.mp isOther
        split
        · exact (induction _ _ _).trans (List.set_set_perm inList markInList)
        · exact induction _ _ _
      next => exact List.Perm.refl _
    next => exact List.Perm.refl _

theorem sortFields_perm (fields : List CdmField) : (sortFields fields).Perm fields :=
  sortFieldsFrom_perm _ _ _ _

def shortPart (fields : List CdmField) : List CdmField :=
  (sortFields fields).takeWhile fun field => decide (field.type = .short)

def longPart (fields : List CdmField) : List CdmField :=
  (sortFields fields).dropWhile fun field => decide (field.type = .short)

theorem parts_perm (fields : List CdmField) : (shortPart fields ++ longPart fields).Perm fields := by
  rw [shortPart, longPart, List.takeWhile_append_dropWhile]
  exact sortFields_perm fields

theorem short_of_mem_shortPart {fields : List CdmField} {field : CdmField}
    (member : field ∈ shortPart fields) : field.type = .short := by
  simpa using List.mem_takeWhile_imp member

abbrev Present := CdmField × List UInt8

def presentFields (values : FieldValues) (fields : List CdmField) : List Present :=
  fields.filterMap fun field => (values field.name).map fun value => (field, value)

theorem mem_presentFields {values : FieldValues} {fields : List CdmField} {field : CdmField}
    {value : List UInt8} :
    (field, value) ∈ presentFields values fields ↔
      field ∈ fields ∧ values field.name = some value := by
  rw [presentFields, List.mem_filterMap]
  constructor
  · rintro ⟨other, member, isPresent⟩
    obtain ⟨found, isValue, same⟩ := Option.map_eq_some_iff.mp isPresent
    obtain ⟨rfl, rfl⟩ := Prod.mk.inj same
    exact ⟨member, isValue⟩
  · rintro ⟨member, isValue⟩
    exact ⟨field, member, by rw [isValue]; rfl⟩

theorem presentFields_cons_none {values : FieldValues} {field : CdmField}
    (absent : values field.name = none) (fields : List CdmField) :
    presentFields values (field :: fields) = presentFields values fields := by
  simp [presentFields, absent]

theorem presentFields_cons_some {values : FieldValues} {field : CdmField} {value : List UInt8}
    (isValue : values field.name = some value) (fields : List CdmField) :
    presentFields values (field :: fields) = (field, value) :: presentFields values fields := by
  simp [presentFields, isValue]

theorem map_presentFields (values : FieldValues) (fields : List CdmField) :
    (presentFields values fields).map Prod.fst =
      fields.filter fun field => (values field.name).isSome := by
  induction fields with
  | nil => rfl
  | cons field fields induction =>
    cases isValue : values field.name with
    | none =>
      rw [presentFields_cons_none isValue, induction, List.filter_cons_of_neg (by simp [isValue])]
    | some value =>
      rw [presentFields_cons_some isValue, List.map_cons, induction,
        List.filter_cons_of_pos (by simp [isValue])]

def longHeaders : (position : Nat) → List Present → List UInt8
  | _, [] => []
  | position, present :: rest =>
    longfieldHeader present.1 position present.2.length ++
      longHeaders (position + present.2.length + 1) rest

def longBodies (presents : List Present) : List UInt8 :=
  presents.flatMap fun present => present.2 ++ [0]

theorem writeShortfields_eq (behind : CdmField → Nat → UInt8) (values : FieldValues)
    (parts : Parts) (fields : List CdmField) :
    writeShortfields behind values parts fields =
      { parts with
        shortfields := parts.shortfields ++ (presentFields values fields).flatMap fun present =>
          writeShortfieldToBuf (behind present.1) present.1 present.2 } := by
  induction fields generalizing parts with
  | nil => simp [writeShortfields, presentFields]
  | cons field fields induction =>
    rw [writeShortfields]
    split
    next absent => rw [induction, presentFields_cons_none absent]
    next value isValue =>
      rw [induction, presentFields_cons_some isValue, List.flatMap_cons, List.append_assoc]

theorem writeLongfields_eq (values : FieldValues) (parts : Parts) (fields : List CdmField) :
    writeLongfields values parts fields =
      { parts with
        longfieldHeaders := parts.longfieldHeaders ++
          longHeaders parts.longfieldBodies.length (presentFields values fields)
        longfieldBodies := parts.longfieldBodies ++ longBodies (presentFields values fields) } := by
  induction fields generalizing parts with
  | nil => simp [writeLongfields, presentFields, longHeaders, longBodies]
  | cons field fields induction =>
    rw [writeLongfields]
    split
    next absent => rw [induction, presentFields_cons_none absent]
    next value isValue =>
      rw [induction, presentFields_cons_some isValue]
      simp [writeLongfieldToBuf, longHeaders, longBodies, Nat.add_assoc]

theorem buildParts_eq (behind : CdmField → Nat → UInt8) (fields : List CdmField)
    (values : FieldValues) :
    buildParts behind (sortFields fields) values =
      { shortfields := (presentFields values (shortPart fields)).flatMap fun present =>
          writeShortfieldToBuf (behind present.1) present.1 present.2
        longfieldHeaders := longHeaders 0 (presentFields values (longPart fields))
        longfieldBodies := longBodies (presentFields values (longPart fields)) } := by
  rw [buildParts, writeShortfields_eq, writeLongfields_eq]
  simp [shortPart, longPart]

theorem zeroBytes_zeros {behind : Nat → UInt8} {count : Nat}
    (zeros : ∀ place, 32 ≤ place → place < count → behind place = 0) :
    zeroBytes behind count = List.replicate count 0 := by
  rw [zeroBytes, List.eq_replicate_iff]
  refine ⟨by simp, ?_⟩
  intro byte member
  obtain ⟨place, inRange, rfl⟩ := List.mem_map.mp member
  split
  next => rfl
  next far => exact zeros place (Nat.le_of_not_lt far) (List.mem_range.mp inRange)

theorem appendZeroFrom_zeros {behind : Nat → UInt8} (fuel : Nat) {left : Nat}
    (zeros : ∀ place, 32 ≤ place → place < left → behind place = 0) :
    ∃ count, appendZeroFrom behind fuel left = List.replicate count 0 ∧
      (0 < fuel → 0 < left → 0 < count) := by
  induction fuel generalizing left with
  | zero => exact ⟨0, rfl, fun positive => absurd positive (Nat.lt_irrefl _)⟩
  | succ fuel induction =>
    rw [appendZeroFrom]
    split
    next some_left =>
      have later : ∀ place, 32 ≤ place → place < left - (if left > 32 then 32 else left) →
          behind place = 0 := fun place far inside =>
        zeros place far (lt_of_lt_of_le inside (Nat.sub_le _ _))
      obtain ⟨count, isZeros, -⟩ := induction later
      refine ⟨left + count, ?_, fun _ _ => Nat.add_pos_left some_left count⟩
      rw [isZeros, zeroBytes_zeros zeros, List.replicate_append_replicate]
    next none_left => exact ⟨0, rfl, fun _ positive => absurd positive none_left⟩

theorem shortfieldLengths_spec (field : CdmField) (value : List UInt8)
    (isShort : field.type = .short) :
    value.take (shortfieldLengths field value.length).1 = storedValue field value ∧
      0 < (shortfieldLengths field value.length).2 := by
  rw [shortfieldLengths, storedValue]
  by_cases limited : field.size ≠ 0
  · rw [if_pos limited, if_pos (And.intro isShort limited)]
    by_cases long : value.length > field.size
    · rw [if_pos long]
      exact ⟨rfl, Nat.one_pos⟩
    · rw [if_neg long]
      refine ⟨?_, Nat.succ_pos _⟩
      rw [List.take_length, List.take_of_length_le (Nat.le_of_not_lt long)]
  · rw [if_neg limited, if_neg (fun both => limited both.2)]
    exact ⟨List.take_length, Nat.one_pos⟩

/-- The names are those of configured fields and the values are strings. -/
def Plain (presents : List Present) : Prop :=
  ∀ present ∈ presents, (9 ∉ present.1.name ∧ 0 ∉ present.1.name) ∧ 0 ∉ present.2

theorem Plain.tail {present : Present} {presents : List Present}
    (plain : Plain (present :: presents)) : Plain presents :=
  fun other member => plain other (List.mem_cons_of_mem _ member)

/-- No byte behind the array `zero` that is written for a field is other than zero. -/
def PaddedWithZeros (behind : CdmField → Nat → UInt8) (presents : List Present) : Prop :=
  ∀ present ∈ presents, ∀ place, 32 ≤ place →
    place < (shortfieldLengths present.1 present.2.length).2 → behind present.1 place = 0

theorem shortEntries {behind : CdmField → Nat → UInt8} {presents : List Present}
    (plain : Plain presents) (padded : PaddedWithZeros behind presents)
    (areShort : ∀ present ∈ presents, present.1.type = .short) :
    ∃ entries : List ShortEntry,
      (presents.flatMap fun present =>
        writeShortfieldToBuf (behind present.1) present.1 present.2) = shortfieldBytes entries ∧
      List.Forall₂ (fun entry present => entry.name = present.1.name ∧
        entry.value = storedValue present.1 present.2) entries presents := by
  induction presents with
  | nil => exact ⟨[], rfl, List.Forall₂.nil⟩
  | cons present presents induction =>
    obtain ⟨entries, isBytes, agree⟩ := induction plain.tail
      (fun other member => padded other (List.mem_cons_of_mem _ member))
      (fun other member => areShort other (List.mem_cons_of_mem _ member))
    obtain ⟨⟨noTab, nameNoZero⟩, noZero⟩ := plain present List.mem_cons_self
    obtain ⟨taken, positive⟩ :=
      shortfieldLengths_spec present.1 present.2 (areShort present List.mem_cons_self)
    obtain ⟨count, isZeros, some_zeros⟩ := appendZeroFrom_zeros
      (shortfieldLengths present.1 present.2.length).2 (padded present List.mem_cons_self)
    obtain ⟨zeros, rfl⟩ := Nat.exists_eq_succ_of_ne_zero (Nat.ne_of_gt (some_zeros positive positive))
    have storedNoZero : 0 ∉ storedValue present.1 present.2 := by
      rw [← taken]
      exact fun member => noZero (List.mem_of_mem_take member)
    refine ⟨⟨present.1.name, storedValue present.1 present.2, zeros, noTab, nameNoZero,
      storedNoZero⟩ :: entries, ?_, List.Forall₂.cons ⟨rfl, rfl⟩ agree⟩
    rw [List.flatMap_cons, isBytes]
    simp [writeShortfieldToBuf, shortfieldBytes, ShortEntry.bytes, ShortEntry.behindName, taken,
      appendZero, isZeros, List.replicate_succ]

theorem decimal_eq_print (number : Nat) : decimal number = Decimal.print number := rfl

theorem longEntries {presents : List Present} (plain : Plain presents) (before : List UInt8) :
    ∃ entries : List LongEntry,
      longHeaders before.length presents = longfieldBytes entries ∧
      List.Forall₂ (fun entry present => entry.name = present.1.name ∧ entry.value = present.2)
        entries presents ∧
      ∀ entry ∈ entries, entry.next ≤ (before ++ longBodies presents).length ∧
        ((before ++ longBodies presents).drop entry.text).take (entry.value.length + 1) =
          entry.value ++ [0] := by
  induction presents generalizing before with
  | nil => exact ⟨[], rfl, List.Forall₂.nil, by simp⟩
  | cons present presents induction =>
    obtain ⟨entries, isBytes, agree, bodies⟩ := induction plain.tail (before ++ (present.2 ++ [0]))
    obtain ⟨⟨noTab, nameNoZero⟩, -⟩ := plain present List.mem_cons_self
    have layout : before ++ longBodies (present :: presents) =
        before ++ (present.2 ++ [0]) ++ longBodies presents := by
      simp [longBodies]
    have length : (before ++ (present.2 ++ [0])).length =
        before.length + present.2.length + 1 := by
      simp
      omega
    rw [length] at isBytes
    refine ⟨⟨present.1.name, before.length, present.2, noTab, nameNoZero⟩ :: entries, ?_,
      List.Forall₂.cons ⟨rfl, rfl⟩ agree, ?_⟩
    · rw [longHeaders, isBytes]
      simp [longfieldHeader, longfieldBytes, LongEntry.bytes, LongEntry.behindName,
        LongEntry.next, decimal_eq_print]
    · intro entry member
      rw [layout]
      rcases List.mem_cons.mp member with equal | later
      · subst equal
        constructor
        · rw [LongEntry.next, List.length_append, length]
          exact Nat.le_add_right _ _
        · rw [List.append_assoc, List.drop_left, List.append_assoc, List.take_append,
            List.take_of_length_le (Nat.le_succ _)]
          simp
      · exact bodies entry later

end Wisebot.Cdm
