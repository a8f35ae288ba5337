import Wisebot.SimpleXml.Readers

namespace Wisebot.SimpleXml

open Wisebot.Lib Wisebot.Lib.Reading

/-! The readers as functions of the rest of the document. -/

/-- Behind spaces and `<`. -/
def readAngle (text : Bytes) : Outcome Bytes :=
  match text.dropWhile isSpace with
  | [] => .failed
  | byte :: rest => if byte = 60 then .ended rest else .failed

/-- The name up to `>`, and what is behind it. -/
def nameFrom (room : Nat) (text : Bytes) : Outcome (Bytes × Bytes) :=
  let name := text.takeWhile fun byte => byte ≠ 62
  if name.length < room then
    match text.dropWhile fun byte => byte ≠ 62 with
    | [] => .failed
    | _ :: rest => .ended (name, rest)
  else .wrong

def rootStart (room : Nat) (text : Bytes) : Outcome (Bytes × Bytes) :=
  (readAngle text).bind (nameFrom room)

def fieldStart (room : Nat) (text : Bytes) : Outcome (Bytes × Bytes) :=
  (readAngle text).bind fun rest =>
    match rest with
    | [] => .wrong
    | byte :: _ => if byte = 47 then .failed else nameFrom room rest

def tagEnd (name text : Bytes) : Outcome Bytes :=
  (readAngle text).bind fun rest =>
    if (47 :: name ++ [62]).isPrefixOf rest then .ended (rest.drop (name.length + 2)) else .failed

/-- What is in front of the first `]]>` and behind it. -/
def untilClose : Bytes → Option (Bytes × Bytes)
  | [] => none
  | byte :: rest =>
    if [93, 93, 62].isPrefixOf (byte :: rest) then some ([], rest.drop 2)
    else (untilClose rest).map fun read => (byte :: read.1, read.2)

/-- The document from a value on, the length of the value and what is behind it. -/
structure Extent where
  start : Bytes
  length : Nat
  rest : Bytes
deriving DecidableEq

/-- The value up to `]]>`. -/
def closedExtent (start : Bytes) : Outcome Extent :=
  match untilClose start with
  | none => .failed
  | some read => .ended ⟨start, read.1.length, read.2⟩

def cdata (text : Bytes) : Outcome Extent :=
  match text.dropWhile isSpace with
  | [] => .failed
  | byte :: rest =>
    if cdataStart.isPrefixOf (byte :: rest) then closedExtent ((byte :: rest).drop 9)
    else if (byte :: rest).isPrefixOf cdataStart then .wrong
    else .failed

def plainText (text : Bytes) : Extent :=
  ⟨text, (text.takeWhile fun byte => byte ≠ 60).length, text.dropWhile fun byte => byte ≠ 60⟩

def valueFrom (text : Bytes) : Outcome Extent :=
  match cdata text with
  | .failed => .ended (plainText text)
  | read => read

def Scan.reach (scan : Scan) (text : Bytes) (c : UInt8) : Scan :=
  { scan with
    text := text
    left := text.length
    count := scan.count + (scan.text.length - text.length)
    c := c }

def Scan.Synced (scan : Scan) : Prop := scan.left = scan.text.length

variable {scan : Scan} {text rest : Bytes} {byte c : UInt8}

theorem reach_synced (scan : Scan) (text : Bytes) (c : UInt8) : (scan.reach text c).Synced := rfl

@[simp] theorem text_reach : (scan.reach text c).text = text := rfl

@[simp] theorem c_reach : (scan.reach text c).c = c := rfl

theorem reach_self (synced : scan.Synced) : scan.reach scan.text scan.c = scan := by
  rw [Scan.reach, Nat.sub_self, Nat.add_zero, ← synced]

theorem reach_reach {other : UInt8} (shorter : rest.length ≤ text.length)
    (within : text.length ≤ scan.text.length) :
    (scan.reach text c).reach rest other = scan.reach rest other := by
  simp only [Scan.reach, Scan.mk.injEq, true_and, and_true]
  omega

theorem Scan.Synced.reach_c (synced : scan.Synced) (isText : scan.text = text) :
    ({ scan with c := c } : Scan) = scan.reach text c := by
  rw [← isText, Scan.reach, Nat.sub_self, Nat.add_zero, ← synced]

theorem Scan.Synced.left_pos (synced : scan.Synced) (isText : scan.text = byte :: rest) :
    0 < scan.left := by
  rw [synced, isText, List.length_cons]
  omega

theorem Scan.Synced.left_nil (synced : scan.Synced) (isText : scan.text = []) :
    scan.left = 0 := by
  rw [synced, isText]
  rfl

theorem outcome_look (synced : scan.Synced) (isText : scan.text = byte :: rest) :
    outcome look scan = .ended ((), scan.reach (byte :: rest) byte) := by
  rw [look, outcome_gets_bind, outcome_require_bind, if_pos (by simp [isText]), isText,
    outcome_update, ← synced.reach_c isText]
  rfl

theorem outcome_getc (synced : scan.Synced) (isText : scan.text = byte :: rest) :
    outcome getc scan = .ended ((), scan.reach (byte :: rest) byte) := by
  have positive := synced.left_pos isText
  rw [getc, outcome_gets_bind, outcome_ensure_bind, if_pos (by omega), outcome_look synced isText]

theorem outcome_getc_nil (synced : scan.Synced) (isText : scan.text = []) :
    outcome getc scan = .failed := by
  rw [getc, outcome_gets_bind, outcome_ensure_bind, synced.left_nil isText, if_neg (by simp)]

theorem outcome_expect_bind {α : Type} {char : UInt8} {program : Reading Scan α} :
    outcome (expect char >>= fun _ => program) scan =
      if scan.c = char then outcome program scan else .failed := by
  by_cases same : scan.c = char
  · rw [if_pos same, outcome_bind_of_ended]
    rw [expect, outcome_gets_bind, outcome_ensure, if_pos same]
  · rw [if_neg same, outcome_bind_of_failed]
    rw [expect, outcome_gets_bind, outcome_ensure, if_neg same]

theorem outcome_next (within : (byte :: rest).length ≤ scan.text.length) :
    outcome next (scan.reach (byte :: rest) c) = .ended ((), scan.reach rest c) := by
  rw [next, outcome_update]
  rw [List.length_cons] at within
  simp only [Scan.reach, List.tail_cons, List.length_cons, Outcome.ended.injEq, Prod.mk.injEq,
    Scan.mk.injEq, true_and, and_true]
  constructor <;> omega

/-- A round that takes the next byte if it has a property. -/
structure Takes (round : Reading Scan Bool) (takes : UInt8 → Bool) : Prop where
  atEnd : ∀ {scan : Scan}, scan.Synced → scan.text = [] →
    outcome round scan = .ended (false, scan)
  again : ∀ {scan : Scan} {byte rest}, scan.Synced → scan.text = byte :: rest →
    takes byte = true → outcome round scan = .ended (true, scan.reach rest byte)
  stops : ∀ {scan : Scan} {byte rest}, scan.Synced → scan.text = byte :: rest →
    takes byte = false → outcome round scan = .ended (false, scan.reach (byte :: rest) byte)

theorem Takes.loop {round : Reading Scan Bool} {takes : UInt8 → Bool} (rounds : Takes round takes)
    (synced : scan.Synced) :
    ∃ c, outcome (loopOverText round) scan =
        .ended ((), scan.reach (scan.text.dropWhile takes) c) ∧
      ∀ byte rest, scan.text.dropWhile takes = byte :: rest → c = byte := by
  rw [loopOverText, outcome_gets_bind]
  generalize isFuel : scan.text.length + 1 = fuel
  generalize isText : scan.text = text at isFuel ⊢
  induction text generalizing scan fuel with
  | nil =>
    subst isFuel
    refine ⟨scan.c, ?_, fun byte rest isNone => by cases isNone⟩
    rw [List.dropWhile_nil, ← isText, reach_self synced,
      outcome_loop_stop (rounds.atEnd synced isText)]
  | cons byte text induction =>
    subst isFuel
    cases taken : takes byte with
    | false =>
      rw [List.dropWhile_cons_of_neg (by simp [taken])]
      exact ⟨byte, outcome_loop_stop (rounds.stops synced isText taken),
        fun other rest isDrop => (List.cons_eq_cons.mp isDrop).1⟩
    | true =>
      obtain ⟨c, isLoop, isC⟩ :=
        @induction (scan.reach text byte) (reach_synced _ _ _) _ rfl rfl
      rw [List.dropWhile_cons_of_pos taken, List.length_cons,
        outcome_loop_again (rounds.again synced isText taken), isLoop]
      refine ⟨c, ?_, isC⟩
      rw [reach_reach (List.dropWhile_sublist _).length_le]
      rw [isText, List.length_cons]
      exact Nat.le_succ _

theorem spaceRound_takes : Takes spaceRound isSpace where
  atEnd synced isText := by
    rw [spaceRound, outcome_gets_bind, if_neg (by rw [synced.left_nil isText]; decide),
      outcome_pure]
  again synced isText taken := by
    rw [spaceRound, outcome_gets_bind, if_pos (synced.left_pos isText),
      outcome_bind_of_ended (outcome_look synced isText), outcome_gets_bind, c_reach,
      if_pos taken, outcome_bind_of_ended (outcome_next (isText ▸ Nat.le_refl _)), outcome_pure]
  stops synced isText taken := by
    rw [spaceRound, outcome_gets_bind, if_pos (synced.left_pos isText),
      outcome_bind_of_ended (outcome_look synced isText), outcome_gets_bind, c_reach,
      if_neg (by simp [taken]), outcome_pure]

theorem textRound_takes : Takes textRound fun byte => decide (byte ≠ 60) where
  atEnd synced isText := by
    rw [textRound, outcome_gets_bind, if_neg (by rw [synced.left_nil isText]; decide),
      outcome_pure]
  again synced isText taken := by
    rw [textRound, outcome_gets_bind, if_pos (synced.left_pos isText),
      outcome_bind_of_ended (outcome_getc synced isText), outcome_gets_bind, c_reach,
      if_neg (by simpa using taken), outcome_bind_of_ended (outcome_next (isText ▸ Nat.le_refl _)),
      outcome_pure]
  stops synced isText taken := by
    rw [textRound, outcome_gets_bind, if_pos (synced.left_pos isText),
      outcome_bind_of_ended (outcome_getc synced isText), outcome_gets_bind, c_reach,
      if_pos (by simpa using taken), outcome_pure]

theorem outcome_skipSpace_nil (synced : scan.Synced) (isDrop : scan.text.dropWhile isSpace = []) :
    outcome skipSpace scan = .failed := by
  obtain ⟨c, isLoop, -⟩ := spaceRound_takes.loop synced
  rw [skipSpace, outcome_bind_of_ended isLoop, outcome_gets_bind, outcome_ensure, isDrop, if_neg]
  exact fun isZero => isZero rfl

theorem outcome_skipSpace_cons (synced : scan.Synced)
    (isDrop : scan.text.dropWhile isSpace = byte :: rest) :
    outcome skipSpace scan = .ended ((), scan.reach (byte :: rest) byte) := by
  obtain ⟨c, isLoop, isC⟩ := spaceRound_takes.loop synced
  have positive := (reach_synced scan (byte :: rest) byte).left_pos rfl
  rw [skipSpace, outcome_bind_of_ended isLoop, outcome_gets_bind, outcome_ensure, isDrop,
    isC byte rest isDrop, if_pos (by omega)]

theorem outcome_angle {α : Type} (program : Reading Scan α) (synced : scan.Synced) :
    outcome (skipSpace >>= fun _ => expect 60 >>= fun _ => next >>= fun _ => program) scan =
      (readAngle scan.text).bind fun rest => outcome program (scan.reach rest 60) := by
  rw [readAngle]
  rcases isDrop : scan.text.dropWhile isSpace with _ | ⟨byte, rest⟩
  · rw [outcome_bind_of_failed (outcome_skipSpace_nil synced isDrop)]
    rfl
  · have within : (byte :: rest).length ≤ scan.text.length := by
      rw [← isDrop]
      exact (List.dropWhile_sublist _).length_le
    rw [outcome_bind_of_ended (outcome_skipSpace_cons synced isDrop), outcome_expect_bind, c_reach]
    by_cases isAngle : byte = 60
    · subst isAngle
      rw [if_pos rfl, outcome_bind_of_ended (outcome_next within)]
      rfl
    · simp [isAngle]

theorem length_readAngle (isRest : readAngle text = .ended rest) : rest.length < text.length := by
  unfold readAngle at isRest
  have shorter := (List.dropWhile_sublist isSpace (l := text)).length_le
  split at isRest
  case h_1 => cases isRest
  case h_2 byte rest' isDrop =>
    rw [isDrop, List.length_cons] at shorter
    split at isRest
    · cases isRest
      omega
    · cases isRest

def Scan.named (scan : Scan) (name : Bytes) : Scan := { scan with name := scan.name ++ name }

@[simp] theorem named_nil : scan.named [] = scan := by
  rw [Scan.named, List.append_nil]

theorem outcome_write_fits (fits : scan.name.length < scan.room) :
    outcome (write byte) scan = .ended ((), scan.named [byte]) := by
  rw [write, outcome_gets_bind, outcome_gets_bind, outcome_require_bind, if_pos fits,
    outcome_update]
  rfl

theorem outcome_write_full (full : ¬ scan.name.length < scan.room) :
    outcome (write byte) scan = .wrong := by
  rw [write, outcome_gets_bind, outcome_gets_bind, outcome_require_bind, if_neg full]

theorem nameRound_atEnd (synced : scan.Synced) (isText : scan.text = []) :
    outcome nameRound scan = .ended (false, scan) := by
  rw [nameRound, outcome_gets_bind, if_neg (by rw [synced.left_nil isText]; decide),
    outcome_pure]

theorem nameRound_stops (synced : scan.Synced) (isText : scan.text = 62 :: rest) :
    outcome nameRound scan = .ended (false, scan.reach (62 :: rest) 62) := by
  rw [nameRound, outcome_gets_bind, if_pos (synced.left_pos isText),
    outcome_bind_of_ended (outcome_look synced isText), outcome_gets_bind, c_reach,
    if_neg (by simp), outcome_pure]

theorem nameRound_again (synced : scan.Synced) (isText : scan.text = byte :: rest)
    (other : byte ≠ 62) (fits : scan.name.length < scan.room) :
    outcome nameRound scan = .ended (true, (scan.named [byte]).reach rest byte) := by
  have wrote : outcome (write byte) (scan.reach (byte :: rest) byte) =
      .ended ((), (scan.named [byte]).reach (byte :: rest) byte) := outcome_write_fits fits
  rw [nameRound, outcome_gets_bind, if_pos (synced.left_pos isText),
    outcome_bind_of_ended (outcome_look synced isText), outcome_gets_bind, c_reach,
    if_pos other, outcome_bind_of_ended wrote,
    outcome_bind_of_ended (outcome_next (isText ▸ Nat.le_refl _)), outcome_pure]

theorem nameRound_wrong (synced : scan.Synced) (isText : scan.text = byte :: rest)
    (other : byte ≠ 62) (full : ¬ scan.name.length < scan.room) :
    outcome nameRound scan = .wrong := by
  have wrote : outcome (write byte) (scan.reach (byte :: rest) byte) = .wrong :=
    outcome_write_full full
  rw [nameRound, outcome_gets_bind, if_pos (synced.left_pos isText),
    outcome_bind_of_ended (outcome_look synced isText), outcome_gets_bind, c_reach,
    if_pos other, outcome_bind_of_wrong wrote]

theorem outcome_nameLoop (synced : scan.Synced) (other : scan.c ≠ 62)
    (hasRoom : scan.name.length ≤ scan.room) :
    (scan.name.length + (scan.text.takeWhile fun byte => byte ≠ 62).length ≤ scan.room →
      ∃ c, outcome (loopOverText nameRound) scan = .ended ((),
          (scan.reach (scan.text.dropWhile fun byte => byte ≠ 62) c).named
            (scan.text.takeWhile fun byte => byte ≠ 62)) ∧
        (c = 62 ↔ scan.text.dropWhile (fun byte => byte ≠ 62) ≠ [])) ∧
    (scan.room < scan.name.length + (scan.text.takeWhile fun byte => byte ≠ 62).length →
      outcome (loopOverText nameRound) scan = .wrong) := by
  rw [loopOverText, outcome_gets_bind]
  generalize isFuel : scan.text.length + 1 = fuel
  generalize isText : scan.text = text at isFuel ⊢
  induction text generalizing scan fuel with
  | nil =>
    subst isFuel
    rw [outcome_loop_stop (nameRound_atEnd synced isText), List.takeWhile_nil,
      List.dropWhile_nil]
    refine ⟨fun _ => ⟨scan.c, ?_, by simp [other]⟩, fun tooLong => ?_⟩
    · rw [← isText, reach_self synced, isText, named_nil]
    · rw [List.length_nil] at tooLong
      omega
  | cons byte text induction =>
    subst isFuel
    by_cases isEnd : byte = 62
    · subst isEnd
      rw [outcome_loop_stop (nameRound_stops synced isText),
        List.takeWhile_cons_of_neg (by simp), List.dropWhile_cons_of_neg (by simp)]
      refine ⟨fun _ => ⟨62, by rw [named_nil], by simp⟩, fun tooLong => ?_⟩
      rw [List.length_nil] at tooLong
      omega
    · rw [List.takeWhile_cons_of_pos (by simp [isEnd]),
        List.dropWhile_cons_of_pos (by simp [isEnd])]
      by_cases fits : scan.name.length < scan.room
      · have isNamed : ((scan.named [byte]).reach text byte).name.length =
            scan.name.length + 1 := List.length_append
        obtain ⟨goesOn, tooLong⟩ := @induction ((scan.named [byte]).reach text byte)
          (reach_synced _ _ _) isEnd (isNamed ▸ fits) _ rfl rfl
        rw [isNamed] at goesOn tooLong
        rw [@List.length_cons _ _ text,
          outcome_loop_again (nameRound_again synced isText isEnd fits)]
        refine ⟨fun enough => ?_, fun more => tooLong ?_⟩
        · rw [List.length_cons] at enough
          obtain ⟨c, isLoop, isC⟩ := goesOn
            (by change _ ≤ scan.room; omega)
          refine ⟨c, ?_, isC⟩
          rw [isLoop, reach_reach (List.dropWhile_sublist _).length_le]
          · simp [Scan.named, Scan.reach]
          · change text.length ≤ scan.text.length
            rw [isText, List.length_cons]
            exact Nat.le_succ _
        · rw [List.length_cons] at more
          change scan.room < _
          omega
      · rw [outcome_loop_wrong (nameRound_wrong synced isText isEnd fits)]
        refine ⟨fun enough => ?_, fun _ => rfl⟩
        rw [List.length_cons] at enough
        omega

theorem outcome_writeEnd_fits (fits : scan.name.length < scan.room) :
    outcome writeEnd scan = .ended ((), scan) := by
  rw [writeEnd, outcome_gets_bind, outcome_gets_bind, outcome_require, if_pos fits]

theorem outcome_writeEnd_full (full : ¬ scan.name.length < scan.room) :
    outcome writeEnd scan = .wrong := by
  rw [writeEnd, outcome_gets_bind, outcome_gets_bind, outcome_require, if_neg full]

theorem outcome_readName (synced : scan.Synced) (other : scan.c ≠ 62) (empty : scan.name = []) :
    outcome readName scan = (nameFrom scan.room scan.text).bind fun read =>
      .ended ((), (scan.reach read.2 62).named read.1) := by
  obtain ⟨goesOn, tooLong⟩ := outcome_nameLoop synced other (by rw [empty]; exact Nat.zero_le _)
  rw [empty, List.length_nil, Nat.zero_add] at goesOn tooLong
  rw [readName, nameFrom]
  generalize isName : (scan.text.takeWhile fun byte => byte ≠ 62) = name at goesOn tooLong
  have isLength : ∀ text c, ((scan.reach text c).named name).name.length = name.length := by
    intro text c
    change (scan.name ++ name).length = _
    rw [empty, List.nil_append]
  by_cases fits : name.length < scan.room
  · obtain ⟨c, isLoop, isC⟩ := goesOn (Nat.le_of_lt fits)
    simp only [if_pos fits]
    rw [outcome_bind_of_ended isLoop, outcome_bind_of_ended
      (outcome_writeEnd_fits ((isLength _ c).trans_lt fits)), outcome_expect_bind]
    change (if c = 62 then _ else _) = _
    rcases isDrop : scan.text.dropWhile fun byte => byte ≠ 62 with _ | ⟨byte, rest⟩
    · rw [isDrop] at isC
      simp only [isDrop]
      rw [if_neg (by simpa using isC)]
      rfl
    · rw [isDrop] at isC
      simp only [isDrop]
      have isEnd : c = 62 := isC.mpr (List.cons_ne_nil _ _)
      have within : (byte :: rest).length ≤ scan.text.length := by
        rw [← isDrop]
        exact (List.dropWhile_sublist _).length_le
      rw [if_pos isEnd, isEnd]
      exact @outcome_next (scan.named _) rest byte 62 within
  · simp only [if_neg fits]
    by_cases exact : name.length ≤ scan.room
    · obtain ⟨c, isLoop, -⟩ := goesOn exact
      rw [outcome_bind_of_ended isLoop, outcome_bind_of_wrong
        (outcome_writeEnd_full fun short => fits ((isLength _ c).symm.trans_lt short))]
      rfl
    · rw [outcome_bind_of_wrong (tooLong (Nat.lt_of_not_le exact))]
      rfl

theorem length_nameFrom {room : Nat} {name : Bytes}
    (isRead : nameFrom room text = .ended (name, rest)) : rest.length < text.length := by
  unfold nameFrom at isRead
  have shorter := (List.dropWhile_sublist (fun byte => decide (byte ≠ 62)) (l := text)).length_le
  dsimp only at isRead
  split at isRead
  · split at isRead
    case h_1 => cases isRead
    case h_2 byte rest' isDrop =>
      rw [isDrop, List.length_cons] at shorter
      cases isRead
      omega
  · cases isRead

structure Scan.Fresh (scan : Scan) : Prop where
  synced : scan.Synced
  unnamed : scan.name = []

theorem outcome_readRootnodeStart (fresh : scan.Fresh) :
    outcome readRootnodeStart scan = (rootStart scan.room scan.text).bind fun read =>
      .ended ((), (scan.reach read.2 62).named read.1) := by
  rw [readRootnodeStart, outcome_angle _ fresh.synced, rootStart]
  rcases isRest : readAngle scan.text with _ | _ | rest
  · rfl
  · rfl
  · have shorter := length_readAngle isRest
    have other : (scan.reach rest 60).c ≠ 62 := by
      rw [c_reach]
      decide
    rw [Outcome.ended_bind, Outcome.ended_bind,
      outcome_readName (reach_synced _ _ _) other fresh.unnamed]
    change (nameFrom scan.room rest).bind _ = _
    rcases isRead : nameFrom scan.room rest with _ | _ | ⟨name, behind⟩
    · rfl
    · rfl
    · rw [Outcome.ended_bind, Outcome.ended_bind,
        reach_reach (length_nameFrom isRead).le shorter.le]

theorem outcome_readFieldStart (fresh : scan.Fresh) :
    outcome readFieldStart scan = (fieldStart scan.room scan.text).bind fun read =>
      .ended ((), (scan.reach read.2 62).named read.1) := by
  rw [readFieldStart, outcome_angle _ fresh.synced, fieldStart]
  rcases isRest : readAngle scan.text with _ | _ | rest
  · rfl
  · rfl
  · have shorter := length_readAngle isRest
    have other : (scan.reach rest 60).c ≠ 62 := by
      rw [c_reach]
      decide
    rw [Outcome.ended_bind, Outcome.ended_bind, outcome_gets_bind, outcome_require_bind,
      text_reach]
    cases rest with
    | nil => rfl
    | cons byte rest =>
      rw [if_pos (List.cons_ne_nil _ _), outcome_ensure_bind, List.headD_cons]
      by_cases isSlash : byte = 47
      · simp [isSlash]
      · simp only [if_neg isSlash, if_pos isSlash]
        rw [outcome_readName (reach_synced _ _ _) other fresh.unnamed]
        change (nameFrom scan.room (byte :: rest)).bind _ = _
        rcases isRead : nameFrom scan.room (byte :: rest) with _ | _ | ⟨name, behind⟩
        · rfl
        · rfl
        · rw [Outcome.ended_bind, Outcome.ended_bind,
            reach_reach (length_nameFrom isRead).le shorter.le]

end Wisebot.SimpleXml
