import Wisebot.Lib.Related
import Wisebot.SimpleXml.Loop

namespace Wisebot.SimpleXml

open Wisebot.Lib

/-! What the parser reads from a document that has been written in two levels. -/

structure RootName (name : Bytes) : Prop where
  short : name.length < shortStringSize
  isTag : TagName name
  noZero : (0 : UInt8) ∉ name

structure FieldName (name : Bytes) : Prop extends RootName name where
  nonempty : name ≠ []
  noSlash : NoSlash name

structure WrittenField where
  space : Bytes
  name : Bytes
  written : Bytes
  offset : Nat
  value : Bytes
  isSpaces : Space space
  isName : FieldName name
  content : Content written offset value

namespace WrittenField

def bytes (field : WrittenField) : Bytes :=
  field.space ++ 60 :: (field.name ++ 62 :: (field.written ++
    60 :: 47 :: (field.name ++ [62])))

end WrittenField

/-- A document of two levels, with white space in front of the end tag of its root, and
what is behind it. -/
structure WrittenDocument where
  rootnode : Bytes
  fields : List WrittenField
  space : Bytes
  behind : Bytes
  isRoot : RootName rootnode
  isSpaces : Space space
  few : fields.length ≤ maxFieldNum

namespace WrittenDocument

def bytes (written : WrittenDocument) : Bytes :=
  60 :: (written.rootnode ++ 62 :: ((written.fields.map WrittenField.bytes).flatten ++
    (written.space ++ 60 :: 47 :: (written.rootnode ++ 62 :: written.behind))))

def lastValue (written : WrittenDocument) (name : Bytes) : Option Bytes :=
  (written.fields.reverse.find? fun field => sameName field.name name).map WrittenField.value

/-- `/root/name` -/
def path (written : WrittenDocument) (name : Bytes) : Bytes :=
  47 :: (written.rootnode ++ 47 :: name)

/-- The name is read back: the value of its last field with its length, or none. -/
def ReadsBack (written : WrittenDocument) (name : Bytes) : Prop :=
  ∃ parser, parselen written.bytes = .ended parser ∧
    ((retrieveField parser (written.path name)).map fun read =>
        ((written.bytes.drop read.1).take read.2.toNat, read.2)) =
      (written.lastValue name).map fun value => (value, (value.length : Int))

end WrittenDocument

variable {name rest : Bytes} {size : Nat}

theorem stringOf_eq (noZero : (0 : UInt8) ∉ name) : stringOf name = name := by
  rw [stringOf, List.takeWhile_eq_self_iff]
  intro byte member
  exact decide_eq_true fun isZero => noZero (isZero ▸ member)

theorem Content.take {written value : Bytes} {offset : Nat} (content : Content written offset value)
    (rest : Bytes) : ((written ++ rest).drop offset).take value.length = value := by
  cases content with
  | @cdata space value behind isSpaces free isSpacesBehind =>
    have isWritten : space ++ (cdataStart ++ (value ++ cdataEnd ++ behind)) ++ rest =
        space ++ (cdataStart ++ (value ++ (cdataEnd ++ behind ++ rest))) := by
      simp only [List.append_assoc]
    rw [isWritten, ← List.drop_drop, List.drop_left]
    exact List.take_left
  | text free => exact List.take_left

structure Records (xmltext : Bytes) (field : Field) (written : WrittenField) : Prop where
  name : field.name = written.name
  length : field.length = written.value.length
  value : (xmltext.drop field.value).take written.value.length = written.value

theorem fieldStart_written (written : WrittenField) (room : Nat)
    (inRoom : written.name.length < room) :
    fieldStart room (written.bytes ++ rest) = .ended (written.name,
      written.written ++ 60 :: 47 :: (written.name ++ 62 :: rest)) := by
  refine fieldStart_iff.mpr ⟨inRoom, written.isName.isTag, written.isName.noSlash, written.space,
    written.isSpaces, ?_⟩
  simp only [WrittenField.bytes, List.append_assoc, List.cons_append, List.nil_append]

theorem fieldBehind_written {xmltext : Bytes} (written : WrittenField)
    (suffix : written.bytes ++ rest <:+ xmltext) :
    ∃ field, Records xmltext field written ∧
      fieldBehind xmltext.length written.name
          (written.written ++ 60 :: 47 :: (written.name ++ 62 :: rest)) =
        .ended (field, rest) := by
  obtain ⟨space, isSpaces, isValue⟩ := written.content.valueFrom (written.name ++ 62 :: rest)
  have isString := stringOf_eq written.isName.noZero
  refine ⟨_, ?_, fieldBehind_iff.mpr ⟨_, isValue, ?_, rfl⟩⟩
  · refine ⟨isString, rfl, ?_⟩
    have isContent : written.written ++ 60 :: 47 :: (written.name ++ 62 :: rest) <:+ xmltext := by
      refine List.IsSuffix.trans ⟨written.space ++ 60 :: (written.name ++ [62]), ?_⟩ suffix
      simp only [WrittenField.bytes, List.append_assoc, List.cons_append, List.nil_append]
    have isStart := (valueFrom_within isValue).1.trans isContent
    exact (congrArg (List.take written.value.length) (drop_position isStart)).trans
      (written.content.take _)
  · rw [isString]
    exact tagEnd_iff.mpr ⟨space, isSpaces, rfl⟩

theorem fieldsFrom_written {xmltext : Bytes} (written : List WrittenField) {fuel : Nat}
    {fields : List Field} (enough : written.length < fuel)
    (few : fields.length + written.length ≤ maxFieldNum)
    (isEnd : ∀ room, fieldStart room rest = .failed)
    (suffix : (written.map WrittenField.bytes).flatten ++ rest <:+ xmltext) :
    ∃ recorded, List.Forall₂ (Records xmltext) recorded written ∧
      fieldsFrom xmltext.length fuel ((written.map WrittenField.bytes).flatten ++ rest) fields =
        .ended (rest, fields ++ recorded) := by
  induction written generalizing fuel fields with
  | nil =>
    cases fuel with
    | zero => exact absurd enough (Nat.not_lt_zero _)
    | succ fuel =>
      refine ⟨[], .nil, ?_⟩
      rw [fieldsFrom, List.map_nil, List.flatten_nil, List.nil_append, isEnd,
        List.append_nil]
  | cons first written induction =>
    cases fuel with
    | zero => exact absurd enough (Nat.not_lt_zero _)
    | succ fuel =>
      rw [List.length_cons] at enough few
      rw [List.map_cons, List.flatten_cons, List.append_assoc] at suffix ⊢
      have inRoom : first.name.length < nameRoom fields.length := by
        rw [nameRoom, if_pos (by omega)]
        exact first.isName.short
      obtain ⟨field, records, isField⟩ := fieldBehind_written first suffix
      obtain ⟨recorded, all, isRest⟩ := @induction fuel (fields ++ [field]) (by omega)
        (by rw [List.length_append, List.length_singleton]; omega)
        ((List.suffix_append _ _).trans suffix)
      refine ⟨field :: recorded, .cons records all, ?_⟩
      rw [fieldsFrom, fieldStart_written first _ inRoom]
      simp only
      rw [isField, Outcome.ended_bind, isRest, List.append_assoc, List.singleton_append]

theorem readAngle_endTag {space : Bytes} (isSpaces : Space space) :
    readAngle (space ++ 60 :: rest) = .ended rest := readAngle_iff.mpr ⟨space, isSpaces, rfl⟩

theorem length_written (fields : List WrittenField) :
    fields.length ≤ (fields.map WrittenField.bytes).flatten.length := by
  induction fields with
  | nil => exact Nat.zero_le _
  | cons first fields induction =>
    rw [List.map_cons, List.flatten_cons, List.length_append, List.length_cons,
      WrittenField.bytes, List.length_append, List.length_cons]
    omega

theorem parselen_written (written : WrittenDocument) :
    ∃ recorded, List.Forall₂ (Records written.bytes) recorded written.fields ∧
      parselen written.bytes = .ended ⟨written.rootnode, recorded⟩ := by
  have isString := stringOf_eq written.isRoot.noZero
  have isRoot : rootStart shortStringSize written.bytes = .ended (written.rootnode,
      (written.fields.map WrittenField.bytes).flatten ++
        (written.space ++ 60 :: 47 :: (written.rootnode ++ 62 :: written.behind))) :=
    rootStart_iff.mpr ⟨written.isRoot.short, written.isRoot.isTag, [],
      fun byte member => absurd member List.not_mem_nil, rfl⟩
  have isEnd : ∀ room, fieldStart room
      (written.space ++ 60 :: 47 :: (written.rootnode ++ 62 :: written.behind)) = .failed := by
    intro room
    rw [fieldStart, readAngle_endTag written.isSpaces, Outcome.ended_bind]
    exact if_pos rfl
  have few := written.few
  have small : written.fields.length < written.bytes.length + 1 := by
    have many := length_written written.fields
    simp only [WrittenDocument.bytes, List.length_cons, List.length_append]
    omega
  obtain ⟨recorded, all, isFields⟩ := @fieldsFrom_written _ written.bytes written.fields
    (written.bytes.length + 1) [] small
    (by rw [List.length_nil, Nat.zero_add]; exact few) isEnd
    ⟨60 :: (written.rootnode ++ [62]), by simp [WrittenDocument.bytes]⟩
  refine ⟨recorded, all, ?_⟩
  rw [parselen_eq, document, isRoot, Outcome.ended_bind, isFields, Outcome.ended_bind, isString,
    tagEnd_iff.mpr ⟨written.space, written.isSpaces, rfl⟩]
  rfl

theorem lastName_path (written : WrittenDocument) (noSlash : (47 : UInt8) ∉ name) :
    lastName (written.path name) = name := by
  rw [lastName, WrittenDocument.path, List.drop_one, List.tail_cons, List.reverse_append,
    List.reverse_cons, List.append_assoc, List.singleton_append, takeWhile_until (by simpa),
    List.reverse_reverse]

/-- A name without a slash is read back. -/
theorem written_readsBack (written : WrittenDocument) (noSlash : (47 : UInt8) ∉ name) :
    written.ReadsBack name := by
  obtain ⟨recorded, all, isParser⟩ := parselen_written written
  refine ⟨_, isParser, ?_⟩
  have found := @find_rel _ _ (Records written.bytes) (fun field => sameName field.name name)
    (fun field => sameName field.name name) _ _ (List.rel_reverse all)
    (fun field source records => by rw [records.name])
  rw [retrieveField, lastName_path written noSlash, WrittenDocument.lastValue]
  revert found
  generalize recorded.reverse.find? (fun field => sameName field.name name) = field
  generalize written.fields.reverse.find? (fun field => sameName field.name name) = source
  intro found
  cases found with
  | none => rfl
  | @some field source records =>
    simp only [Option.map_some, records.length, Int.toNat_natCast, records.value]

/-! `<r><a><![CDATA[v]]]></a> <a/b>t</a/b></r>` -/

theorem rootName_r : RootName [114] := ⟨by decide, by decide, by decide⟩

theorem fieldName_a : FieldName [97] :=
  ⟨⟨by decide, by decide, by decide⟩, by decide, by decide⟩

theorem fieldName_slash : FieldName [97, 47, 98] :=
  ⟨⟨by decide, by decide, by decide⟩, by decide, by decide⟩

theorem space_nil : Space [] := fun _ member => absurd member List.not_mem_nil

theorem space_blank : Space [32] := by decide

theorem free_bracket : ¬ cdataEnd <:+: [118, 93] := by decide

theorem free_angle : (60 : UInt8) ∉ ([116] : Bytes) := by decide

theorem few_two : 2 ≤ maxFieldNum := by decide

def writtenBracket : WrittenField where
  space := []
  name := [97]
  written := [] ++ (cdataStart ++ ([118, 93] ++ cdataEnd ++ []))
  offset := 9
  value := [118, 93]
  isSpaces := space_nil
  isName := fieldName_a
  content := .cdata space_nil free_bracket space_nil

def writtenSlash : WrittenField where
  space := [32]
  name := [97, 47, 98]
  written := [116]
  offset := 0
  value := [116]
  isSpaces := space_blank
  isName := fieldName_slash
  content := .text free_angle

def writtenTwo : WrittenDocument where
  rootnode := [114]
  fields := [writtenBracket, writtenSlash]
  space := []
  behind := []
  isRoot := rootName_r
  isSpaces := space_nil
  few := few_two

theorem written_readsBack_bracket : writtenTwo.ReadsBack [97] :=
  written_readsBack writtenTwo (by decide)

/-- What is in front of the last slash of a name is not looked at. -/
theorem slash_notReadBack : ¬ writtenTwo.ReadsBack [97, 47, 98] := by
  rintro ⟨parser, isParser, same⟩
  have isRead : parselen writtenTwo.bytes =
      .ended ⟨[114], [⟨[97], 15, 2⟩, ⟨[97, 47, 98], 30, 1⟩]⟩ := by decide +kernel
  rw [isRead] at isParser
  cases isParser
  revert same
  decide +kernel

end Wisebot.SimpleXml
