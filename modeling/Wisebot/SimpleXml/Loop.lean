import Mathlib.Data.List.Infix
import Wisebot.SimpleXml.Grammar

namespace Wisebot.SimpleXml

open Wisebot.Lib

/-! The loop over the fields, on the rest of the document. -/

/-- One field behind `fieldcount` others, of a document of that size. -/
def fieldBehind (size : Nat) (name content : Bytes) : Outcome (Field × Bytes) :=
  (valueFrom content).bind fun value =>
    (tagEnd (stringOf name) value.rest).bind fun rest =>
      .ended (⟨stringOf name, size - value.start.length, value.length⟩, rest)

def fieldsFrom (size : Nat) : (fuel : Nat) → (text : Bytes) → (fields : List Field) →
    Outcome (Bytes × List Field)
  | 0, _, _ => .wrong
  | fuel + 1, text, fields =>
    match fieldStart (nameRoom fields.length) text with
    | .wrong => .wrong
    | .failed => .ended (text, fields)
    | .ended start =>
      (fieldBehind size start.1 start.2).bind fun read =>
        fieldsFrom size fuel read.2 (fields ++ [read.1])

def document (xmltext : Bytes) : Outcome Parser :=
  (rootStart shortStringSize xmltext).bind fun root =>
    (fieldsFrom xmltext.length (xmltext.length + 1) root.2 []).bind fun read =>
      (tagEnd (stringOf root.1) read.1).bind fun _ => .ended ⟨stringOf root.1, read.2⟩

variable {xmltext text rest name content : Bytes}

def position (xmltext rest : Bytes) : Nat := xmltext.length - rest.length

theorem position_within : position xmltext rest ≤ xmltext.length := Nat.sub_le _ _

theorem drop_position (suffix : rest <:+ xmltext) : xmltext.drop (position xmltext rest) = rest :=
  (List.suffix_iff_eq_drop.mp suffix).symm

section Calls

variable {scan : Scan} {extent : Extent} {room : Nat} {c : UInt8}

@[simp] theorem count_named : (scan.named name).count = scan.count := rfl

@[simp] theorem name_named_start {pos : Nat} :
    (((Scan.start xmltext pos room).reach rest c).named name).name = name := rfl

@[simp] theorem count_took : (scan.took extent c).count = (scan.reach extent.rest c).count := rfl

@[simp] theorem fieldlength_took : (scan.took extent c).fieldlength = extent.length := rfl

theorem position_reach (suffix : text <:+ xmltext) (further : rest <:+ text) :
    position xmltext text + ((Scan.start xmltext (position xmltext text) room).reach rest c).count =
      position xmltext rest := by
  have shorter := suffix.length_le
  have shorter' := further.length_le
  change position xmltext text + (0 + ((xmltext.drop (position xmltext text)).length -
    rest.length)) = _
  rw [drop_position suffix, position, position]
  omega

theorem position_fieldtext (suffix : text <:+ xmltext) (inside : extent.start <:+ text) :
    position xmltext text +
        ((Scan.start xmltext (position xmltext text) room).took extent c).fieldtext =
      position xmltext extent.start := position_reach (c := c) suffix inside

end Calls

theorem fieldStart_suffix {room : Nat} (isStart : fieldStart room text = .ended (name, rest)) :
    rest <:+ text := by
  obtain ⟨-, -, -, space, -, rfl⟩ := fieldStart_iff.mp isStart
  exact ⟨space ++ 60 :: (name ++ [62]), by simp⟩

theorem tagEnd_suffix (isEnd : tagEnd name text = .ended rest) : rest <:+ text := by
  obtain ⟨space, -, rfl⟩ := tagEnd_iff.mp isEnd
  exact ⟨space ++ 60 :: 47 :: (name ++ [62]), by simp⟩

theorem fieldBehind_iff {size : Nat} {field : Field} :
    fieldBehind size name content = .ended (field, rest) ↔
      ∃ extent, valueFrom content = .ended extent ∧
        tagEnd (stringOf name) extent.rest = .ended rest ∧
        field = ⟨stringOf name, size - extent.start.length, extent.length⟩ := by
  constructor
  · intro isField
    rw [fieldBehind] at isField
    rcases isExtent : valueFrom content with _ | _ | extent
    · rw [isExtent] at isField
      cases isField
    · rw [isExtent] at isField
      cases isField
    · rw [isExtent, Outcome.ended_bind] at isField
      rcases isEnd : tagEnd (stringOf name) extent.rest with _ | _ | rest'
      · rw [isEnd] at isField
        cases isField
      · rw [isEnd] at isField
        cases isField
      · rw [isEnd] at isField
        cases isField
        exact ⟨extent, rfl, isEnd, rfl⟩
  · rintro ⟨extent, isExtent, isEnd, rfl⟩
    rw [fieldBehind, isExtent, Outcome.ended_bind, isEnd, Outcome.ended_bind]

theorem fieldBehind_suffix {size : Nat} {field : Field}
    (isField : fieldBehind size name content = .ended (field, rest)) : rest <:+ content := by
  obtain ⟨extent, isExtent, isEnd, -⟩ := fieldBehind_iff.mp isField
  exact (tagEnd_suffix isEnd).trans (valueFrom_within isExtent).2.1

theorem fieldsFrom_suffix {size fuel : Nat} {fields fields' : List Field}
    (isFields : fieldsFrom size fuel text fields = .ended (rest, fields')) : rest <:+ text := by
  induction fuel generalizing text fields with
  | zero => cases isFields
  | succ fuel induction =>
    rw [fieldsFrom] at isFields
    rcases isStart : fieldStart (nameRoom fields.length) text with _ | _ | ⟨name, content⟩
    · simp [isStart] at isFields
    · simp only [isStart] at isFields
      cases isFields
      exact List.suffix_refl _
    · simp only [isStart] at isFields
      rcases isField : fieldBehind size name content with _ | _ | ⟨field, behind⟩
      · rw [isField] at isFields
        cases isFields
      · rw [isField] at isFields
        cases isFields
      · rw [isField, Outcome.ended_bind] at isFields
        exact (induction isFields).trans
          ((fieldBehind_suffix isField).trans (fieldStart_suffix isStart))

theorem fieldLoop_eq (fuel : Nat) (fields : List Field) (suffix : text <:+ xmltext) :
    fieldLoop xmltext fuel (position xmltext text) fields =
      (fieldsFrom xmltext.length fuel text fields).bind fun read =>
        .ended (position xmltext read.1, read.2) := by
  induction fuel generalizing text fields with
  | zero => rfl
  | succ fuel induction =>
    rw [fieldLoop, fieldsFrom, call_readFieldStart position_within, drop_position suffix]
    rcases isStart : fieldStart (nameRoom fields.length) text with _ | _ | ⟨name, content⟩
    · rfl
    · rfl
    · have isContent := fieldStart_suffix isStart
      obtain ⟨c, isValue⟩ := @readValue_eq xmltext (position xmltext content) 0 position_within
      rw [drop_position (isContent.trans suffix)] at isValue
      simp only [Outcome.ended_bind, fieldBehind, count_named, name_named_start,
        position_reach suffix isContent, isValue]
      rcases isExtent : valueFrom content with _ | _ | extent
      · rfl
      · rfl
      · obtain ⟨inside, behind, -⟩ := valueFrom_within isExtent
        have contentSuffix := isContent.trans suffix
        simp only [Outcome.ended_bind, count_took, fieldlength_took,
          position_reach contentSuffix behind, position_fieldtext contentSuffix inside]
        rw [readFieldEnd, call_readEnd _ position_within,
          drop_position (behind.trans contentSuffix)]
        rcases isEnd : tagEnd (stringOf name) extent.rest with _ | _ | rest
        · rfl
        · rfl
        · have isRest := tagEnd_suffix isEnd
          simp only [Outcome.ended_bind, position_reach (behind.trans contentSuffix) isRest]
          exact induction _ ((isRest.trans behind).trans contentSuffix)

theorem parselen_eq (xmltext : Bytes) : parselen xmltext = document xmltext := by
  have isStart : position xmltext xmltext = 0 := Nat.sub_self _
  have suffix := List.suffix_refl xmltext
  have isRoot := @call_readRootnodeStart xmltext _ shortStringSize
    (@position_within xmltext xmltext)
  rw [drop_position suffix, isStart] at isRoot
  rw [parselen, document, isRoot]
  rcases isRead : rootStart shortStringSize xmltext with _ | _ | ⟨name, rest⟩
  · rfl
  · rfl
  · obtain ⟨-, -, space, -, isText⟩ := rootStart_iff.mp isRead
    have isRest : rest <:+ xmltext := ⟨space ++ 60 :: (name ++ [62]), by simp [isText]⟩
    have isCount := @position_reach xmltext xmltext rest shortStringSize 62 suffix isRest
    rw [isStart, Nat.zero_add] at isCount
    simp only [Outcome.ended_bind, count_named, name_named_start, isCount,
      fieldLoop_eq _ _ isRest]
    rcases isFields : fieldsFrom xmltext.length (xmltext.length + 1) rest []
      with _ | _ | ⟨behind, fields⟩
    · rfl
    · rfl
    · have isBehind := (fieldsFrom_suffix isFields).trans isRest
      simp only [Outcome.ended_bind]
      rw [readRootnodeEnd, call_readEnd _ position_within, drop_position isBehind]
      rcases tagEnd (stringOf name) behind with _ | _ | closed
      · rfl
      · rfl
      · rfl

end Wisebot.SimpleXml
