import Mathlib.Data.List.TakeWhile
import Wisebot.SimpleXml.Parsing

namespace Wisebot.SimpleXml

open Wisebot.Lib

/-! What a reader takes, as a front of the document. -/

def Space (bytes : Bytes) : Prop := ∀ byte ∈ bytes, isSpace byte = true

instance (bytes : Bytes) : Decidable (Space bytes) :=
  List.decidableBAll (isSpace · = true) bytes

def TagName (name : Bytes) : Prop := (62 : UInt8) ∉ name

instance (name : Bytes) : Decidable (TagName name) :=
  inferInstanceAs (Decidable ((62 : UInt8) ∉ name))

variable {space name value text rest behind : Bytes} {byte : UInt8} {room : Nat}

theorem dropWhile_space (isSpaces : Space space) (other : isSpace byte = false) :
    (space ++ byte :: rest).dropWhile isSpace = byte :: rest := by
  rw [List.dropWhile_append_of_pos isSpaces, List.dropWhile_cons_of_neg (by simp [other])]

theorem dropWhile_space_iff :
    text.dropWhile isSpace = byte :: rest ↔
      isSpace byte = false ∧ ∃ space, Space space ∧ text = space ++ byte :: rest := by
  constructor
  · intro isDrop
    refine ⟨?_, text.takeWhile isSpace, fun byte member => List.mem_takeWhile_imp member, ?_⟩
    · have notHead := List.head?_dropWhile_not isSpace text
      rw [isDrop] at notHead
      exact notHead
    · rw [← isDrop, List.takeWhile_append_dropWhile]
  · rintro ⟨other, space, isSpaces, rfl⟩
    exact dropWhile_space isSpaces other

theorem readAngle_iff :
    readAngle text = .ended rest ↔ ∃ space, Space space ∧ text = space ++ 60 :: rest := by
  rw [readAngle]
  constructor
  · intro isRead
    rcases isDrop : text.dropWhile isSpace with _ | ⟨byte, rest'⟩
    · simp [isDrop] at isRead
    · simp only [isDrop] at isRead
      split at isRead
      · subst byte
        cases isRead
        exact (dropWhile_space_iff.mp isDrop).2
      · cases isRead
  · rintro ⟨space, isSpaces, isText⟩
    have isDrop := dropWhile_space_iff.mpr ⟨(by decide : isSpace 60 = false), space, isSpaces, isText⟩
    simp only [isDrop, if_true]

theorem readAngle_ne_wrong : readAngle text ≠ .wrong := by
  rw [readAngle]
  split
  · exact fun isWrong => by cases isWrong
  · split <;> exact fun isWrong => by cases isWrong

theorem takeWhile_until {stop : UInt8} (free : stop ∉ value) :
    (value ++ stop :: rest).takeWhile (fun byte => decide (byte ≠ stop)) = value := by
  rw [List.takeWhile_append_of_pos, List.takeWhile_cons_of_neg (by simp), List.append_nil]
  intro byte member
  exact decide_eq_true fun isStop => free (isStop ▸ member)

theorem dropWhile_until {stop : UInt8} (free : stop ∉ value) :
    (value ++ stop :: rest).dropWhile (fun byte => decide (byte ≠ stop)) = stop :: rest := by
  rw [List.dropWhile_append_of_pos, List.dropWhile_cons_of_neg (by simp)]
  intro byte member
  exact decide_eq_true fun isStop => free (isStop ▸ member)

theorem nameFrom_iff :
    nameFrom room text = .ended (name, rest) ↔
      name.length < room ∧ TagName name ∧ text = name ++ 62 :: rest := by
  rw [nameFrom]
  constructor
  · intro isRead
    split at isRead
    case isTrue fits =>
      rcases isDrop : text.dropWhile (fun byte => decide (byte ≠ 62)) with _ | ⟨byte, rest'⟩
      · simp only [isDrop] at isRead
        cases isRead
      · simp only [isDrop] at isRead
        cases isRead
        refine ⟨fits, fun member => by simpa using List.mem_takeWhile_imp member, ?_⟩
        have notHead := List.head?_dropWhile_not (fun byte => decide (byte ≠ 62)) text
        rw [isDrop] at notHead
        have isEnd : byte = 62 := by simpa using notHead
        rw [isEnd] at isDrop
        rw [← isDrop, List.takeWhile_append_dropWhile]
    case isFalse => cases isRead
  · rintro ⟨fits, isName, rfl⟩
    simp only [takeWhile_until isName, dropWhile_until isName]
    rw [if_pos fits]

theorem nameFrom_wrong_iff :
    nameFrom room text = .wrong ↔
      room ≤ (text.takeWhile fun byte => byte ≠ 62).length := by
  rw [nameFrom]
  split
  case isTrue fits =>
    refine ⟨fun isWrong => ?_, fun tooLong => absurd fits (Nat.not_lt.mpr tooLong)⟩
    split at isWrong <;> cases isWrong
  case isFalse full => exact ⟨fun _ => Nat.le_of_not_lt full, fun _ => rfl⟩

theorem rootStart_iff :
    rootStart room text = .ended (name, rest) ↔
      name.length < room ∧ TagName name ∧
        ∃ space, Space space ∧ text = space ++ 60 :: (name ++ 62 :: rest) := by
  rw [rootStart]
  constructor
  · intro isRead
    rcases isAngle : readAngle text with _ | _ | behind
    · exact absurd isAngle readAngle_ne_wrong
    · rw [isAngle] at isRead
      cases isRead
    · rw [isAngle, Outcome.ended_bind, nameFrom_iff] at isRead
      obtain ⟨fits, isName, rfl⟩ := isRead
      exact ⟨fits, isName, readAngle_iff.mp isAngle⟩
  · rintro ⟨fits, isName, isText⟩
    rw [readAngle_iff.mpr isText, Outcome.ended_bind, nameFrom_iff]
    exact ⟨fits, isName, rfl⟩

theorem rootStart_wrong_iff :
    rootStart room text = .wrong ↔ ∃ space behind, Space space ∧ text = space ++ 60 :: behind ∧
      room ≤ (behind.takeWhile fun byte => byte ≠ 62).length := by
  rw [rootStart]
  constructor
  · intro isWrong
    rcases isAngle : readAngle text with _ | _ | behind
    · exact absurd isAngle readAngle_ne_wrong
    · rw [isAngle] at isWrong
      cases isWrong
    · rw [isAngle, Outcome.ended_bind, nameFrom_wrong_iff] at isWrong
      obtain ⟨space, isSpaces, isText⟩ := readAngle_iff.mp isAngle
      exact ⟨space, behind, isSpaces, isText, isWrong⟩
  · rintro ⟨space, behind, isSpaces, isText, tooLong⟩
    rw [readAngle_iff.mpr ⟨space, isSpaces, isText⟩, Outcome.ended_bind, nameFrom_wrong_iff]
    exact tooLong

/-- Not the start of an end tag. -/
def NoSlash (behind : Bytes) : Prop := behind.head? ≠ some 47

instance (behind : Bytes) : Decidable (NoSlash behind) :=
  inferInstanceAs (Decidable (behind.head? ≠ some 47))

theorem noSlash_name (noSlash : NoSlash name) : NoSlash (name ++ 62 :: rest) := by
  cases name with
  | nil => exact fun isSlash => by cases isSlash
  | cons byte name => exact noSlash

theorem noSlash_of_name (noSlash : NoSlash (name ++ 62 :: rest)) : NoSlash name := by
  cases name with
  | nil => exact fun isSlash => by cases isSlash
  | cons byte name => exact noSlash

theorem fieldStart_of_angle {space : Bytes} (isSpaces : Space space) (noSlash : NoSlash behind)
    (nonempty : behind ≠ []) : fieldStart room (space ++ 60 :: behind) = nameFrom room behind := by
  rw [fieldStart, readAngle_iff.mpr ⟨space, isSpaces, rfl⟩, Outcome.ended_bind]
  cases behind with
  | nil => exact absurd rfl nonempty
  | cons byte behind => exact if_neg fun isSlash => noSlash (congrArg some isSlash)

theorem fieldStart_cases (text : Bytes) :
    (fieldStart room text = .failed ∧ ∀ space behind, Space space → text = space ++ 60 :: behind →
      ¬ NoSlash behind) ∨
    ∃ space behind, Space space ∧ NoSlash behind ∧ text = space ++ 60 :: behind ∧
      fieldStart room text = if behind = [] then .wrong else nameFrom room behind := by
  rcases isAngle : readAngle text with _ | _ | behind
  · exact absurd isAngle readAngle_ne_wrong
  · left
    refine ⟨by rw [fieldStart, isAngle, Outcome.failed_bind], fun space behind isSpaces isText => ?_⟩
    rw [readAngle_iff.mpr ⟨space, isSpaces, isText⟩] at isAngle
    cases isAngle
  · obtain ⟨space, isSpaces, isText⟩ := readAngle_iff.mp isAngle
    by_cases noSlash : NoSlash behind
    · refine .inr ⟨space, behind, isSpaces, noSlash, isText, ?_⟩
      split
      case isTrue isNil => rw [fieldStart, isAngle, isNil, Outcome.ended_bind]
      case isFalse nonempty => rw [isText, fieldStart_of_angle isSpaces noSlash nonempty]
    · refine .inl ⟨?_, fun space' behind' isSpaces' isText' => ?_⟩
      · rw [fieldStart, isAngle, Outcome.ended_bind]
        cases behind with
        | nil => exact absurd (fun isSlash => by cases isSlash) noSlash
        | cons byte behind => exact if_pos (Option.some.inj (not_not.mp noSlash))
      · rw [readAngle_iff.mpr ⟨space', isSpaces', isText'⟩] at isAngle
        cases isAngle
        exact noSlash

theorem fieldStart_iff :
    fieldStart room text = .ended (name, rest) ↔
      name.length < room ∧ TagName name ∧ NoSlash name ∧
        ∃ space, Space space ∧ text = space ++ 60 :: (name ++ 62 :: rest) := by
  constructor
  · intro isRead
    rcases @fieldStart_cases room text with
      ⟨failed, -⟩ | ⟨space, behind, isSpaces, noSlash, isText, started⟩
    · rw [failed] at isRead
      cases isRead
    · rw [started] at isRead
      split at isRead
      · cases isRead
      · obtain ⟨fits, isName, rfl⟩ := nameFrom_iff.mp isRead
        exact ⟨fits, isName, noSlash_of_name noSlash, space, isSpaces, isText⟩
  · rintro ⟨fits, isName, noSlash, space, isSpaces, rfl⟩
    rw [fieldStart_of_angle isSpaces (noSlash_name noSlash) (by simp), nameFrom_iff]
    exact ⟨fits, isName, rfl⟩

theorem tagEnd_iff :
    tagEnd name text = .ended rest ↔
      ∃ space, Space space ∧ text = space ++ 60 :: 47 :: (name ++ 62 :: rest) := by
  have isTag : ∀ behind : Bytes, (47 :: name ++ [62]).isPrefixOf behind = true ∧
      behind.drop (name.length + 2) = rest ↔ behind = 47 :: (name ++ 62 :: rest) := by
    intro behind
    rw [List.isPrefixOf_iff_prefix]
    constructor
    · rintro ⟨⟨end', rfl⟩, isRest⟩
      rw [List.drop_left' (by simp)] at isRest
      simp [isRest]
    · rintro rfl
      have same : 47 :: (name ++ 62 :: rest) = (47 :: name ++ [62]) ++ rest := by simp
      rw [same]
      exact ⟨⟨rest, rfl⟩, List.drop_left' (by simp)⟩
  rw [tagEnd]
  constructor
  · intro isRead
    rcases isAngle : readAngle text with _ | _ | behind
    · exact absurd isAngle readAngle_ne_wrong
    · rw [isAngle] at isRead
      cases isRead
    · rw [isAngle, Outcome.ended_bind] at isRead
      split at isRead
      case isTrue opens =>
        cases isRead
        rw [← (isTag behind).mp ⟨opens, rfl⟩]
        exact readAngle_iff.mp isAngle
      case isFalse => cases isRead
  · intro isText
    rw [readAngle_iff.mpr isText, Outcome.ended_bind]
    obtain ⟨opens, isRest⟩ := (isTag _).mpr rfl
    rw [if_pos opens, isRest]

theorem tagEnd_ne_wrong : tagEnd name text ≠ .wrong := by
  rw [tagEnd]
  rcases isAngle : readAngle text with _ | _ | behind
  · exact absurd isAngle readAngle_ne_wrong
  · exact fun isWrong => by cases isWrong
  · rw [Outcome.ended_bind]
    split <;> exact fun isWrong => by cases isWrong

/-- `]]>` -/
def cdataEnd : Bytes := [93, 93, 62]

theorem untilClose_cdataEnd (free : ¬ cdataEnd <:+: value) :
    untilClose (value ++ cdataEnd ++ rest) = some (value, rest) := by
  induction value with
  | nil => rfl
  | cons byte value induction =>
    have isRead := induction fun inside => free (inside.trans (List.suffix_cons _ _).isInfix)
    rw [List.cons_append, List.cons_append, untilClose, if_neg, isRead]
    · rfl
    · intro opens
      rcases value with _ | ⟨second, _ | ⟨third, value⟩⟩
      · simp [cdataEnd] at opens
      · simp [cdataEnd] at opens
      · simp only [List.cons_append, List.isPrefixOf_cons_cons, Bool.and_eq_true,
          beq_iff_eq] at opens
        obtain ⟨rfl, rfl, rfl, -⟩ := opens
        exact free (List.prefix_append cdataEnd value).isInfix

theorem untilClose_free (found : untilClose text = some (value, rest)) :
    ¬ cdataEnd <:+: value := by
  induction text generalizing value with
  | nil => cases found
  | cons byte text induction =>
    rw [untilClose] at found
    split at found
    case isTrue =>
      cases found
      decide
    case isFalse notClose =>
      obtain ⟨⟨value', rest'⟩, isRead, same⟩ := Option.map_eq_some_iff.mp found
      cases same
      intro inside
      rcases List.infix_cons_iff.mp inside with isPrefix | deeper
      · refine notClose (List.isPrefixOf_iff_prefix.mpr ?_)
        rw [untilClose_eq isRead, ← List.cons_append]
        exact List.prefix_append_of_prefix isPrefix
      · exact induction isRead deeper

/-- What stands between the tags of a field, and where its value is. -/
inductive Content : (written : Bytes) → (offset : Nat) → (value : Bytes) → Prop where
  | cdata {space value behind : Bytes} (isSpaces : Space space) (free : ¬ cdataEnd <:+: value)
      (isSpacesBehind : Space behind) :
      Content (space ++ (cdataStart ++ (value ++ cdataEnd ++ behind))) (space.length + 9) value
  | text {value : Bytes} (free : (60 : UInt8) ∉ value) : Content value 0 value

/-- White space and a start of `<![CDATA[` at the end of the document. -/
def CutCdata (text : Bytes) : Prop :=
  ∃ space part, Space space ∧ text = space ++ part ∧ part ≠ [] ∧ part ≠ cdataStart ∧
    part <+: cdataStart

theorem isSpace_of_cdataStart (isPrefix : byte :: rest <+: cdataStart) : isSpace byte = false := by
  obtain ⟨behind, isBehind⟩ := isPrefix
  obtain ⟨rfl, -⟩ := List.cons_eq_cons.mp isBehind
  decide

theorem cdata_of_start {space inner : Bytes} (isSpaces : Space space) :
    cdata (space ++ (cdataStart ++ inner)) = closedExtent inner := by
  have isDrop : (space ++ (cdataStart ++ inner)).dropWhile isSpace = cdataStart ++ inner :=
    dropWhile_space isSpaces (by decide)
  rw [cdata, isDrop]
  rfl

theorem cdata_of_other {space part : Bytes} (isSpaces : Space space) (other : isSpace byte = false)
    (isPart : part = byte :: rest) (notOpened : ¬ cdataStart <+: part)
    (notCut : ¬ part <+: cdataStart) : cdata (space ++ part) = .failed := by
  subst isPart
  rw [cdata, dropWhile_space isSpaces other]
  rw [← List.isPrefixOf_iff_prefix] at notOpened notCut
  simp only [if_neg notOpened, if_neg notCut]

theorem cdata_of_text (free : (60 : UInt8) ∉ value) :
    cdata (value ++ 60 :: 47 :: rest) = .failed := by
  have notPrefix : ∀ {byte : UInt8} {tail : Bytes}, byte ≠ 60 ∨ tail.head? = some 47 →
      ¬ cdataStart <+: byte :: tail ∧ ¬ byte :: tail <+: cdataStart := by
    rintro byte tail (other | isSlash)
    · constructor
      · rintro ⟨_, same⟩
        exact other (List.cons_eq_cons.mp same).1.symm
      · rintro ⟨_, same⟩
        exact other (List.cons_eq_cons.mp same).1
    · obtain ⟨tail, rfl⟩ := List.head?_eq_some_iff.mp isSlash
      constructor
      · rintro ⟨_, same⟩
        exact absurd (List.cons_eq_cons.mp (List.cons_eq_cons.mp same).2).1 (by decide)
      · rintro ⟨_, same⟩
        exact absurd (List.cons_eq_cons.mp (List.cons_eq_cons.mp same).2).1 (by decide)
  rcases isDrop : value.dropWhile isSpace with _ | ⟨byte, tail⟩
  · have isSpaces : Space value := List.dropWhile_eq_nil_iff.mp isDrop
    obtain ⟨notOpened, notCut⟩ := @notPrefix 60 (47 :: rest) (.inr rfl)
    exact cdata_of_other isSpaces (by decide : isSpace 60 = false) rfl notOpened notCut
  · obtain ⟨other, space, isSpaces, rfl⟩ := dropWhile_space_iff.mp isDrop
    have notAngle : byte ≠ 60 := fun isAngle => free (by simp [isAngle])
    obtain ⟨notOpened, notCut⟩ := @notPrefix byte (tail ++ 60 :: 47 :: rest) (.inl notAngle)
    rw [List.append_assoc]
    exact cdata_of_other isSpaces other rfl notOpened notCut

theorem cdata_wrong_iff : cdata text = .wrong ↔ CutCdata text := by
  constructor
  · intro isWrong
    rw [cdata] at isWrong
    rcases isDrop : text.dropWhile isSpace with _ | ⟨byte, rest⟩
    · simp [isDrop] at isWrong
    · obtain ⟨other, space, isSpaces, isText⟩ := dropWhile_space_iff.mp isDrop
      simp only [isDrop] at isWrong
      split at isWrong
      · rw [closedExtent] at isWrong
        split at isWrong <;> cases isWrong
      case isFalse notOpened =>
        split at isWrong
        case isTrue cut =>
          refine ⟨space, byte :: rest, isSpaces, isText, List.cons_ne_nil _ _, ?_,
            List.isPrefixOf_iff_prefix.mp cut⟩
          intro same
          exact notOpened (List.isPrefixOf_iff_prefix.mpr (same ▸ List.prefix_refl _))
        case isFalse => cases isWrong
  · rintro ⟨space, part, isSpaces, rfl, nonempty, short, cut⟩
    rcases part with _ | ⟨byte, rest⟩
    · exact absurd rfl nonempty
    · rw [cdata, dropWhile_space isSpaces (isSpace_of_cdataStart cut)]
      simp only
      rw [if_neg, if_pos (List.isPrefixOf_iff_prefix.mpr cut)]
      intro opened
      have other := List.isPrefixOf_iff_prefix.mp opened
      exact short (cut.eq_of_length (Nat.le_antisymm cut.length_le other.length_le))

theorem valueFrom_wrong_iff : valueFrom text = .wrong ↔ CutCdata text := by
  rw [← cdata_wrong_iff, valueFrom]
  rcases cdata text with _ | _ | extent
  · exact Iff.rfl
  · exact ⟨fun isWrong => (by cases isWrong), fun isWrong => (by cases isWrong)⟩
  · exact Iff.rfl

theorem Content.valueFrom {written : Bytes} {offset : Nat} (content : Content written offset value)
    (rest : Bytes) :
    ∃ behind, Space behind ∧ valueFrom (written ++ 60 :: 47 :: rest) =
      .ended ⟨(written ++ 60 :: 47 :: rest).drop offset, value.length,
        behind ++ 60 :: 47 :: rest⟩ := by
  cases content with
  | @cdata space value behind isSpaces free isSpacesBehind =>
    refine ⟨behind, isSpacesBehind, ?_⟩
    have isInner : space ++ (cdataStart ++ (value ++ cdataEnd ++ behind)) ++ 60 :: 47 :: rest =
        space ++ (cdataStart ++ (value ++ cdataEnd ++ (behind ++ 60 :: 47 :: rest))) := by
      simp only [List.append_assoc]
    have isDrop : (space ++ (cdataStart ++ (value ++ cdataEnd ++
        (behind ++ 60 :: 47 :: rest)))).drop (space.length + 9) =
        value ++ cdataEnd ++ (behind ++ 60 :: 47 :: rest) := by
      rw [← List.drop_drop, List.drop_left]
      rfl
    rw [isInner, isDrop, SimpleXml.valueFrom, cdata_of_start isSpaces, closedExtent,
      untilClose_cdataEnd free]
  | text free =>
    refine ⟨[], fun byte member => absurd member List.not_mem_nil, ?_⟩
    rw [SimpleXml.valueFrom, cdata_of_text free]
    simp only [plainText]
    rw [takeWhile_until free, dropWhile_until free, List.drop_zero, List.nil_append]

theorem cdata_ended {extent : Extent} (isValue : cdata text = .ended extent) :
    ∃ space value, Space space ∧ ¬ cdataEnd <:+: value ∧
      text = space ++ (cdataStart ++ (value ++ cdataEnd ++ extent.rest)) ∧
      extent.start = value ++ cdataEnd ++ extent.rest ∧ extent.length = value.length := by
  rw [cdata] at isValue
  rcases isDrop : text.dropWhile isSpace with _ | ⟨byte, rest⟩
  · simp [isDrop] at isValue
  · obtain ⟨-, space, isSpaces, isText⟩ := dropWhile_space_iff.mp isDrop
    simp only [isDrop] at isValue
    split at isValue
    case isTrue opens =>
      obtain ⟨inner, isInner⟩ := List.isPrefixOf_iff_prefix.mp opens
      rw [← isInner] at isValue isText
      change closedExtent inner = _ at isValue
      rw [closedExtent] at isValue
      rcases found : untilClose inner with _ | ⟨value, behind⟩
      · simp [found] at isValue
      · simp only [found] at isValue
        cases isValue
        have isValueText : inner = value ++ cdataEnd ++ behind := by
          rw [untilClose_eq found, List.append_assoc]
          rfl
        exact ⟨space, value, isSpaces, untilClose_free found, isValueText ▸ isText, isValueText,
          rfl⟩
    case isFalse =>
      split at isValue <;> cases isValue

theorem content_of_valueFrom {extent : Extent} (isValue : valueFrom text = .ended extent)
    (isEnd : tagEnd name extent.rest = .ended rest) :
    ∃ written offset value, Content written offset value ∧
      text = written ++ 60 :: 47 :: (name ++ 62 :: rest) := by
  obtain ⟨space, isSpaces, isRest⟩ := tagEnd_iff.mp isEnd
  rw [valueFrom] at isValue
  rcases isCdata : cdata text with _ | _ | extent'
  · simp [isCdata] at isValue
  · simp only [isCdata] at isValue
    cases isValue
    have noSpace : space = [] := by
      cases space with
      | nil => rfl
      | cons byte space =>
        have notHead := List.head?_dropWhile_not (fun byte => decide (byte ≠ 60)) text
        change text.dropWhile (fun byte => decide (byte ≠ 60)) = _ at isRest
        rw [isRest, List.cons_append, List.head?_cons] at notHead
        have isAngle : byte = 60 := by simpa using notHead
        exact absurd (isSpaces byte List.mem_cons_self) (by rw [isAngle]; decide)
    refine ⟨text.takeWhile (fun byte => decide (byte ≠ 60)), 0, _, .text ?_, ?_⟩
    · intro member
      simpa using List.mem_takeWhile_imp member
    · rw [noSpace, List.nil_append] at isRest
      rw [← isRest]
      exact List.takeWhile_append_dropWhile.symm
  · simp only [isCdata] at isValue
    cases isValue
    obtain ⟨front, value, isFront, free, isText, -⟩ := cdata_ended isCdata
    refine ⟨_, _, value, .cdata isFront free isSpaces, ?_⟩
    rw [isText, isRest]
    simp only [List.append_assoc]

theorem valueFrom_within {extent : Extent} (isValue : valueFrom text = .ended extent) :
    extent.start <:+ text ∧ extent.rest <:+ text ∧ extent.length ≤ extent.start.length := by
  rw [valueFrom] at isValue
  rcases isCdata : cdata text with _ | _ | extent'
  · simp [isCdata] at isValue
  · simp only [isCdata] at isValue
    cases isValue
    exact ⟨List.suffix_refl _, List.dropWhile_suffix _, (List.takeWhile_sublist _).length_le⟩
  · simp only [isCdata] at isValue
    cases isValue
    obtain ⟨space, value, -, -, isText, isStart, isLength⟩ := cdata_ended isCdata
    refine ⟨⟨space ++ cdataStart, ?_⟩, ⟨space ++ cdataStart ++ value ++ cdataEnd, ?_⟩, ?_⟩
    · rw [isText, isStart]
      simp only [List.append_assoc]
    · rw [isText]
      simp only [List.append_assoc]
    · rw [isStart, isLength, List.append_assoc, List.length_append]
      exact Nat.le_add_right _ _

end Wisebot.SimpleXml
