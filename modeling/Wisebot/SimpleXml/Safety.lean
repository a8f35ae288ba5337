import Wisebot.SimpleXml.Loop

namespace Wisebot.SimpleXml

open Wisebot.Lib

/-! Documents on which the parser stays inside the document and its arrays. -/

inductive Fields : (text : Bytes) → (count : Nat) → (rest : Bytes) → Prop where
  | none (rest : Bytes) : Fields rest 0 rest
  | field {space name written value text rest : Bytes} {offset count : Nat}
      (isSpaces : Space space) (isName : TagName name) (noSlash : NoSlash name)
      (content : Content written offset value) (more : Fields text count rest) :
      Fields
        (space ++ 60 :: (name ++ 62 :: (written ++ 60 :: 47 :: (stringOf name ++ 62 :: text))))
        (count + 1) rest

/-- The document begins with the start tag of the root and complete fields. -/
def Begins (xmltext : Bytes) (count : Nat) (rest : Bytes) : Prop :=
  ∃ space name text, Space space ∧ TagName name ∧ xmltext = space ++ 60 :: (name ++ 62 :: text) ∧
    Fields text count rest

/-- The name up to `>`, or up to the end of the document, leaves a byte for its zero. -/
def ShortName (behind : Bytes) : Prop :=
  (behind.takeWhile fun byte => byte ≠ 62).length < shortStringSize

/-- What may follow so many fields: a `<` is not the last byte, and if no `/` is behind it
there is an entry left for a field, with a short name, and no cut `<![CDATA[` behind the
name. -/
def MayFollow (count : Nat) (text : Bytes) : Prop :=
  ∀ space behind, Space space → text = space ++ 60 :: behind → NoSlash behind →
    behind ≠ [] ∧ count < maxFieldNum ∧ ShortName behind ∧
      ∀ name content, TagName name → behind = name ++ 62 :: content → ¬ CutCdata content

structure Recorded (size : Nat) (field : Field) : Prop where
  name : field.name.length < shortStringSize
  nonneg : 0 ≤ field.length
  inside : field.value + field.length ≤ size

def Bounded (xmltext : Bytes) : Prop :=
  (∀ space behind, Space space → xmltext = space ++ 60 :: behind → ShortName behind) ∧
    ∀ count rest, Begins xmltext count rest → MayFollow count rest

/-- The parser ends without a look behind the document or a write behind an array, and what
it records lies inside. -/
def Safe (xmltext : Bytes) : Prop :=
  parselen xmltext ≠ .wrong ∧ ∀ parser, parselen xmltext = .ended parser →
    parser.rootnode.length < shortStringSize ∧ parser.fields.length ≤ maxFieldNum ∧
      ∀ field ∈ parser.fields, Recorded xmltext.length field

variable {text rest name content : Bytes} {count size : Nat}

theorem lt_nameRoom {length : Nat} :
    length < nameRoom count ↔ count < maxFieldNum ∧ length < shortStringSize := by
  rw [nameRoom]
  split
  case isTrue inside => exact (and_iff_right inside).symm
  case isFalse full =>
    exact ⟨fun fits => absurd fits (Nat.not_lt_zero _), fun fits => absurd fits.1 full⟩

theorem mayFollow_iff :
    MayFollow count text ↔ fieldStart (nameRoom count) text ≠ .wrong ∧
      ∀ name content, fieldStart (nameRoom count) text = .ended (name, content) →
        ¬ CutCdata content := by
  rcases @fieldStart_cases (nameRoom count) text with
    ⟨failed, isSlash⟩ | ⟨space, behind, isSpaces, noSlash, isText, started⟩
  · rw [failed]
    refine ⟨fun _ => ⟨fun isWrong => (by cases isWrong), fun name content isEnded =>
      (by cases isEnded)⟩, fun _ space behind isSpaces isText noSlash => ?_⟩
    exact absurd noSlash (isSlash space behind isSpaces isText)
  · have isAngle := readAngle_iff.mpr ⟨space, isSpaces, isText⟩
    rw [started]
    by_cases isNil : behind = []
    · rw [if_pos isNil]
      refine ⟨fun mayFollow => ?_, fun safe => absurd rfl safe.1⟩
      exact absurd isNil (mayFollow space behind isSpaces isText noSlash).1
    · rw [if_neg isNil, Ne, nameFrom_wrong_iff, Nat.not_le, lt_nameRoom]
      constructor
      · intro mayFollow
        obtain ⟨-, inside, short, notCut⟩ := mayFollow space behind isSpaces isText noSlash
        refine ⟨⟨inside, short⟩, fun name content isEnded => ?_⟩
        obtain ⟨-, isName, isBehind⟩ := nameFrom_iff.mp isEnded
        exact notCut name content isName isBehind
      · rintro ⟨⟨inside, short⟩, notCut⟩ space' behind' isSpaces' isText' -
        rw [readAngle_iff.mpr ⟨space', isSpaces', isText'⟩] at isAngle
        cases isAngle
        refine ⟨isNil, inside, short, fun name content isName isBehind => ?_⟩
        refine notCut name content (nameFrom_iff.mpr ⟨?_, isName, isBehind⟩)
        rw [isBehind, takeWhile_until isName] at short
        exact lt_nameRoom.mpr ⟨inside, short⟩

theorem fields_succ_iff {fieldcount : Nat} (mayFollow : MayFollow fieldcount text) :
    Fields text (count + 1) rest ↔ ∃ name content field behind,
      fieldStart (nameRoom fieldcount) text = .ended (name, content) ∧
      fieldBehind size name content = .ended (field, behind) ∧ Fields behind count rest := by
  constructor
  · intro fields
    cases fields with
    | @field space name written value behind _ offset _ isSpaces isName noSlash content more =>
      obtain ⟨-, inside, short, -⟩ :=
        mayFollow space _ isSpaces rfl (noSlash_name noSlash)
      rw [ShortName, takeWhile_until isName] at short
      obtain ⟨space', isSpaces', isValue⟩ :=
        content.valueFrom (stringOf name ++ 62 :: behind)
      exact ⟨name, _, _, behind,
        fieldStart_iff.mpr ⟨lt_nameRoom.mpr ⟨inside, short⟩, isName, noSlash, space, isSpaces, rfl⟩,
        fieldBehind_iff.mpr ⟨_, isValue, tagEnd_iff.mpr ⟨space', isSpaces', rfl⟩, rfl⟩, more⟩
  · rintro ⟨name, content, field, behind, isStart, isField, more⟩
    obtain ⟨-, isName, noSlash, space, isSpaces, rfl⟩ := fieldStart_iff.mp isStart
    obtain ⟨extent, isValue, isEnd, -⟩ := fieldBehind_iff.mp isField
    obtain ⟨written, offset, value, isContent, rfl⟩ := content_of_valueFrom isValue isEnd
    exact .field isSpaces isName noSlash isContent more

theorem fieldBehind_wrong_iff : fieldBehind size name content = .wrong ↔ CutCdata content := by
  rw [← valueFrom_wrong_iff, fieldBehind]
  rcases isExtent : valueFrom content with _ | _ | extent
  · exact ⟨fun _ => rfl, fun _ => rfl⟩
  · exact ⟨fun isWrong => (by cases isWrong), fun isWrong => (by cases isWrong)⟩
  · refine ⟨fun isWrong => ?_, fun isWrong => (by cases isWrong)⟩
    rw [Outcome.ended_bind] at isWrong
    rcases isEnd : tagEnd (stringOf name) extent.rest with _ | _ | rest
    · exact absurd isEnd tagEnd_ne_wrong
    · rw [isEnd] at isWrong
      cases isWrong
    · rw [isEnd] at isWrong
      cases isWrong

theorem length_fieldStart {room : Nat} (isStart : fieldStart room text = .ended (name, rest)) :
    rest.length < text.length := by
  obtain ⟨-, -, -, space, -, rfl⟩ := fieldStart_iff.mp isStart
  simp only [List.length_append, List.length_cons]
  omega

theorem mayFollow_later {fieldcount : Nat} (mayFollow : MayFollow fieldcount text) :
    (∀ count rest, Fields text count rest → MayFollow (fieldcount + count) rest) ↔
      ∀ name content field behind, fieldStart (nameRoom fieldcount) text = .ended (name, content) →
        fieldBehind size name content = .ended (field, behind) →
          ∀ count rest, Fields behind count rest → MayFollow (fieldcount + 1 + count) rest := by
  constructor
  · intro all name content field behind isStart isField count rest more
    rw [Nat.add_assoc, Nat.add_comm 1 count]
    exact all (count + 1) rest
      ((fields_succ_iff mayFollow).mpr ⟨name, content, field, behind, isStart, isField, more⟩)
  · intro all count rest fields
    cases count with
    | zero =>
      cases fields
      exact mayFollow
    | succ count =>
      obtain ⟨name, content, field, behind, isStart, isField, more⟩ :=
        (@fields_succ_iff text rest count size fieldcount mayFollow).mp fields
      have later := all name content field behind isStart isField count rest more
      rwa [Nat.add_assoc, Nat.add_comm 1 count] at later

theorem fieldsFrom_safe_iff {fuel : Nat} {fields : List Field} (enough : text.length < fuel) :
    fieldsFrom size fuel text fields ≠ .wrong ↔
      ∀ count rest, Fields text count rest → MayFollow (fields.length + count) rest := by
  induction fuel generalizing text fields with
  | zero => exact absurd enough (Nat.not_lt_zero _)
  | succ fuel induction =>
    by_cases mayFollow : MayFollow fields.length text
    case neg =>
      refine ⟨fun safe => absurd ?_ mayFollow, fun all => absurd (all 0 text (.none text)) mayFollow⟩
      rw [fieldsFrom] at safe
      refine mayFollow_iff.mpr ⟨fun isWrong => safe (by rw [isWrong]), ?_⟩
      intro name content isStart cut
      refine safe ?_
      rw [isStart]
      simp only [fieldBehind_wrong_iff.mpr cut]
      rfl
    case pos =>
      obtain ⟨notWrong, notCut⟩ := mayFollow_iff.mp mayFollow
      rw [@mayFollow_later text size _ mayFollow, fieldsFrom]
      rcases isStart : fieldStart (nameRoom fields.length) text with _ | _ | ⟨name, content⟩
      · exact absurd isStart notWrong
      · exact ⟨fun _ name content field behind isEnded => (by cases isEnded),
          fun _ isWrong => (by cases isWrong)⟩
      · simp only
        rcases isField : fieldBehind size name content with _ | _ | ⟨field, behind⟩
        · exact absurd (fieldBehind_wrong_iff.mp isField) (notCut name content isStart)
        · refine ⟨fun _ name' content' field behind isEnded isField' => ?_,
            fun _ isWrong => (by cases isWrong)⟩
          cases isEnded
          rw [isField] at isField'
          cases isField'
        · have shorter := length_fieldStart isStart
          have shorter' := (fieldBehind_suffix isField).length_le
          have inside : (field, behind).2.length < fuel := by
            change behind.length < fuel
            omega
          rw [Outcome.ended_bind, induction inside, List.length_append, List.length_singleton]
          constructor
          · intro all name' content' field' behind' isEnded isField'
            cases isEnded
            rw [isField] at isField'
            cases isField'
            exact all
          · intro all
            exact all name content field behind rfl isField

theorem length_stringOf (name : Bytes) : (stringOf name).length ≤ name.length :=
  (List.takeWhile_sublist _).length_le

theorem fieldBehind_recorded {field : Field} (short : name.length < shortStringSize)
    (inside : content.length ≤ size)
    (isField : fieldBehind size name content = .ended (field, rest)) : Recorded size field := by
  obtain ⟨extent, isExtent, -, rfl⟩ := fieldBehind_iff.mp isField
  obtain ⟨isStart, -, fits⟩ := valueFrom_within isExtent
  have shorter := isStart.length_le
  refine ⟨(length_stringOf name).trans_lt short, Int.natCast_nonneg _, ?_⟩
  change ((size - extent.start.length : Nat) : Int) + extent.length ≤ size
  omega

theorem fieldsFrom_recorded {fuel : Nat} {fields fields' : List Field}
    (inside : text.length ≤ size) (enough : fields.length ≤ maxFieldNum)
    (recorded : ∀ field ∈ fields, Recorded size field)
    (isFields : fieldsFrom size fuel text fields = .ended (rest, fields')) :
    fields'.length ≤ maxFieldNum ∧ ∀ field ∈ fields', Recorded size field := by
  induction fuel generalizing text fields with
  | zero => cases isFields
  | succ fuel induction =>
    rw [fieldsFrom] at isFields
    rcases isStart : fieldStart (nameRoom fields.length) text with _ | _ | ⟨name, content⟩
    · simp [isStart] at isFields
    · simp only [isStart] at isFields
      cases isFields
      exact ⟨enough, recorded⟩
    · simp only [isStart] at isFields
      rcases isField : fieldBehind size name content with _ | _ | ⟨field, behind⟩
      · rw [isField] at isFields
        cases isFields
      · rw [isField] at isFields
        cases isFields
      · rw [isField, Outcome.ended_bind] at isFields
        obtain ⟨inRoom, short⟩ := lt_nameRoom.mp (fieldStart_iff.mp isStart).1
        have shorter := length_fieldStart isStart
        have shorter' := (fieldBehind_suffix isField).length_le
        refine induction (shorter'.trans (by omega)) ?_ ?_ isFields
        · rw [List.length_append, List.length_singleton]
          exact inRoom
        · intro other member
          rcases List.mem_append.mp member with member | isLast
          · exact recorded other member
          · rw [List.mem_singleton.mp isLast]
            exact fieldBehind_recorded short (by omega) isField

theorem parselen_recorded {xmltext : Bytes} {parser : Parser}
    (isParser : parselen xmltext = .ended parser) :
    parser.rootnode.length < shortStringSize ∧ parser.fields.length ≤ maxFieldNum ∧
      ∀ field ∈ parser.fields, Recorded xmltext.length field := by
  rw [parselen_eq, document] at isParser
  rcases isRoot : rootStart shortStringSize xmltext with _ | _ | ⟨name, text⟩
  · rw [isRoot] at isParser
    cases isParser
  · rw [isRoot] at isParser
    cases isParser
  · rw [isRoot, Outcome.ended_bind] at isParser
    obtain ⟨short, -, space, -, isText⟩ := rootStart_iff.mp isRoot
    rcases isFields : fieldsFrom xmltext.length (xmltext.length + 1) text []
      with _ | _ | ⟨behind, fields⟩
    · rw [isFields] at isParser
      cases isParser
    · rw [isFields] at isParser
      cases isParser
    · have inside : text.length ≤ xmltext.length := by
        rw [isText]
        simp only [List.length_append, List.length_cons]
        omega
      have recorded := fieldsFrom_recorded inside (Nat.zero_le _)
        (fun field member => absurd member List.not_mem_nil) isFields
      rw [isFields, Outcome.ended_bind] at isParser
      rcases isEnd : tagEnd (stringOf name) behind with _ | _ | rest
      · rw [isEnd] at isParser
        cases isParser
      · rw [isEnd] at isParser
        cases isParser
      · rw [isEnd] at isParser
        cases isParser
        exact ⟨(length_stringOf name).trans_lt short, recorded⟩

theorem rootStart_safe_iff {xmltext : Bytes} :
    rootStart shortStringSize xmltext ≠ .wrong ↔
      ∀ space behind, Space space → xmltext = space ++ 60 :: behind → ShortName behind := by
  rw [Ne, rootStart_wrong_iff]
  constructor
  · intro notLong space behind isSpaces isText
    exact Nat.lt_of_not_le fun tooLong => notLong ⟨space, behind, isSpaces, isText, tooLong⟩
  · rintro short ⟨space, behind, isSpaces, isText, tooLong⟩
    exact absurd (short space behind isSpaces isText) (Nat.not_lt.mpr tooLong)

theorem begins_iff {xmltext : Bytes} (short : rootStart shortStringSize xmltext ≠ .wrong) :
    Begins xmltext count rest ↔ ∃ name text,
      rootStart shortStringSize xmltext = .ended (name, text) ∧ Fields text count rest := by
  constructor
  · rintro ⟨space, name, text, isSpaces, isName, isText, fields⟩
    have isShort := rootStart_safe_iff.mp short space _ isSpaces isText
    rw [ShortName, takeWhile_until isName] at isShort
    exact ⟨name, text, rootStart_iff.mpr ⟨isShort, isName, space, isSpaces, isText⟩, fields⟩
  · rintro ⟨name, text, isRoot, fields⟩
    obtain ⟨-, isName, space, isSpaces, isText⟩ := rootStart_iff.mp isRoot
    exact ⟨space, name, text, isSpaces, isName, isText, fields⟩

theorem document_safe_iff {xmltext : Bytes} :
    document xmltext ≠ .wrong ↔ Bounded xmltext := by
  rw [Bounded, ← rootStart_safe_iff, document]
  by_cases short : rootStart shortStringSize xmltext ≠ .wrong
  case neg =>
    rw [not_not.mp short]
    exact ⟨fun safe => absurd rfl safe, fun bounded => absurd rfl bounded.1⟩
  case pos =>
    rw [and_iff_right short]
    rcases isRoot : rootStart shortStringSize xmltext with _ | _ | ⟨name, text⟩
    · exact absurd isRoot short
    · refine ⟨fun _ count rest isBegin => ?_, fun _ isWrong => (by cases isWrong)⟩
      obtain ⟨name, text, isEnded, -⟩ := (begins_iff short).mp isBegin
      rw [isRoot] at isEnded
      cases isEnded
    · have inside : text.length < xmltext.length + 1 := by
        obtain ⟨-, -, space, -, isText⟩ := rootStart_iff.mp isRoot
        rw [isText]
        simp only [List.length_append, List.length_cons]
        omega
      have safe := @fieldsFrom_safe_iff text xmltext.length _ [] inside
      rw [Outcome.ended_bind]
      constructor
      · intro notWrong count rest isBegin
        obtain ⟨name', text', isEnded, fields⟩ := (begins_iff short).mp isBegin
        rw [isRoot] at isEnded
        cases isEnded
        have follows := safe.mp (fun isWrong => notWrong (by rw [isWrong]; rfl)) count rest fields
        rwa [List.length_nil, Nat.zero_add] at follows
      · intro follows isWrong
        have notWrong := safe.mpr fun count rest fields => by
          rw [List.length_nil, Nat.zero_add]
          exact follows count rest ((begins_iff short).mpr ⟨name, text, isRoot, fields⟩)
        rcases isFields : fieldsFrom xmltext.length (xmltext.length + 1) text []
          with _ | _ | ⟨behind, fields⟩
        · exact notWrong isFields
        · rw [isFields] at isWrong
          cases isWrong
        · rw [isFields, Outcome.ended_bind] at isWrong
          rcases isEnd : tagEnd (stringOf name) behind with _ | _ | rest
          · exact tagEnd_ne_wrong isEnd
          · rw [isEnd] at isWrong
            cases isWrong
          · rw [isEnd] at isWrong
            cases isWrong

/-- The parser stays inside the document and its arrays exactly on the bounded documents. -/
theorem parselen_safe_iff (xmltext : Bytes) : Safe xmltext ↔ Bounded xmltext := by
  rw [← document_safe_iff, ← parselen_eq, Safe, and_iff_left]
  exact fun parser isParser => parselen_recorded isParser

/-- `<a><` -/
theorem parselen_looksBehind : ¬ Safe [60, 97, 62, 60] := fun safe => safe.1 (by decide)

end Wisebot.SimpleXml
