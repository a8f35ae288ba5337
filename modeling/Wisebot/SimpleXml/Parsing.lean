import Wisebot.SimpleXml.Documents

namespace Wisebot.SimpleXml

open Wisebot.Lib Wisebot.Lib.Reading

/-! The parser as a function of the rest of the document. -/

variable {scan : Scan} {text rest : Bytes} {byte c : UInt8}

theorem outcome_compareName (name : Bytes) (synced : scan.Synced) :
    outcome (compareName name >>= fun _ => getc >>= fun _ => expect 62 >>= fun _ => next) scan =
      if (name ++ [62]).isPrefixOf scan.text then
        .ended ((), scan.reach (scan.text.drop (name.length + 1)) 62)
      else .failed := by
  induction name generalizing scan with
  | nil =>
    rcases isText : scan.text with _ | ⟨byte, rest⟩
    · have stopped : outcome (compareName []) scan = .ended ((), scan) := by
        rw [compareName, outcome_gets_bind, if_neg (by rw [synced.left_nil isText]; decide),
          outcome_pure]
      rw [outcome_bind_of_ended stopped, outcome_bind_of_failed (outcome_getc_nil synced isText)]
      rfl
    · have compared : outcome (compareName []) scan =
          .ended ((), scan.reach (byte :: rest) 0) := by
        rw [compareName, outcome_gets_bind, if_pos (synced.left_pos isText), outcome_update,
          synced.reach_c isText]
      rw [outcome_bind_of_ended compared,
        outcome_bind_of_ended (outcome_getc (reach_synced _ _ _) rfl), outcome_expect_bind,
        c_reach, reach_reach (Nat.le_refl _) (isText ▸ Nat.le_refl _)]
      by_cases isEnd : byte = 62
      · subst isEnd
        rw [if_pos rfl, if_pos (by simp), outcome_next (isText ▸ Nat.le_refl _)]
        rfl
      · rw [if_neg isEnd, if_neg]
        rw [List.nil_append, List.isPrefixOf_cons_cons, beq_eq_false_iff_ne.mpr (Ne.symm isEnd)]
        exact Bool.false_ne_true
  | cons char name induction =>
    rcases isText : scan.text with _ | ⟨byte, rest⟩
    · have stopped : outcome (compareName (char :: name)) scan = .ended ((), scan) := by
        rw [compareName, outcome_gets_bind, if_neg (by rw [synced.left_nil isText]; decide),
          outcome_pure]
      rw [outcome_bind_of_ended stopped, outcome_bind_of_failed (outcome_getc_nil synced isText)]
      rfl
    · by_cases same : byte = char
      · subst same
        have compared : outcome (compareName (byte :: name)) scan =
            outcome (compareName name) (scan.reach rest byte) := by
          rw [compareName, outcome_gets_bind, if_pos (synced.left_pos isText),
            outcome_update_bind, synced.reach_c isText, outcome_gets_bind, outcome_require_bind,
            text_reach, if_pos (List.cons_ne_nil _ _), outcome_ensure_bind, List.headD_cons,
            if_pos rfl, outcome_bind_of_ended (outcome_next (isText ▸ Nat.le_refl _))]
        have within : rest.length ≤ scan.text.length := by
          rw [isText, List.length_cons]
          exact Nat.le_succ _
        rw [outcome_bind_congr compared, induction (reach_synced _ _ _), text_reach,
          List.cons_append, List.isPrefixOf_cons_cons, beq_self_eq_true, Bool.true_and,
          List.length_cons, List.drop_succ_cons]
        split
        · rw [reach_reach _ within]
          rw [List.length_drop]
          exact Nat.sub_le _ _
        · rfl
      · have compared : outcome (compareName (char :: name)) scan = .failed := by
          rw [compareName, outcome_gets_bind, if_pos (synced.left_pos isText),
            outcome_update_bind, synced.reach_c isText, outcome_gets_bind, outcome_require_bind,
            text_reach, if_pos (List.cons_ne_nil _ _), outcome_ensure_bind, List.headD_cons,
            if_neg same]
        rw [outcome_bind_of_failed compared, if_neg]
        simp [Ne.symm same]

theorem outcome_readEnd (name : Bytes) (synced : scan.Synced) :
    outcome (readEnd name) scan =
      (tagEnd name scan.text).bind fun rest => .ended ((), scan.reach rest 62) := by
  rw [readEnd, outcome_angle _ synced, tagEnd]
  rcases isRest : readAngle scan.text with _ | _ | rest
  · rfl
  · rfl
  · have shorter := length_readAngle isRest
    rw [Outcome.ended_bind, Outcome.ended_bind]
    cases rest with
    | nil => rw [outcome_bind_of_failed (outcome_getc_nil (reach_synced _ _ _) rfl)]; rfl
    | cons byte rest =>
      rw [outcome_bind_of_ended (outcome_getc (reach_synced _ _ _) rfl), outcome_expect_bind,
        c_reach, reach_reach (Nat.le_refl _) shorter.le]
      by_cases isSlash : byte = 47
      · subst isSlash
        rw [if_pos rfl, outcome_bind_of_ended (outcome_next shorter.le),
          outcome_compareName _ (reach_synced _ _ _), text_reach, List.cons_append,
          List.isPrefixOf_cons_cons, beq_self_eq_true, Bool.true_and, List.drop_succ_cons]
        have within : rest.length ≤ scan.text.length := by
          rw [List.length_cons] at shorter
          omega
        split
        · rw [Outcome.ended_bind, reach_reach _ within]
          rw [List.length_drop]
          exact Nat.sub_le _ _
        · rfl
      · rw [if_neg isSlash, if_neg]
        · rfl
        · simp [Ne.symm isSlash]

theorem untilClose_cons_other (other : byte ≠ 93) :
    untilClose (byte :: rest) = (untilClose rest).map fun read => (byte :: read.1, read.2) := by
  rw [untilClose, if_neg]
  rw [List.isPrefixOf_cons_cons, beq_eq_false_iff_ne.mpr (Ne.symm other)]
  exact Bool.false_ne_true

theorem untilClose_second_other (other : byte ≠ 93) :
    untilClose (93 :: byte :: rest) =
      (untilClose rest).map fun read => (93 :: byte :: read.1, read.2) := by
  rw [untilClose, if_neg, untilClose_cons_other other, Option.map_map]
  · rfl
  · rw [List.isPrefixOf_cons_cons, List.isPrefixOf_cons_cons,
      beq_eq_false_iff_ne.mpr (Ne.symm other)]
    simp

theorem untilClose_third (other : byte ≠ 62) :
    untilClose (93 :: 93 :: byte :: rest) =
      (untilClose (93 :: byte :: rest)).map fun read => (93 :: read.1, read.2) := by
  rw [untilClose, if_neg]
  rw [List.isPrefixOf_cons_cons, List.isPrefixOf_cons_cons, List.isPrefixOf_cons_cons,
    beq_eq_false_iff_ne.mpr (Ne.symm other)]
  simp

theorem untilClose_eq {value : Bytes} (found : untilClose text = some (value, rest)) :
    text = value ++ 93 :: 93 :: 62 :: rest := by
  induction text generalizing value with
  | nil => cases found
  | cons byte text induction =>
    rw [untilClose] at found
    split at found
    case isTrue isPrefix =>
      obtain ⟨behind, isBehind⟩ := List.isPrefixOf_iff_prefix.mp isPrefix
      cases isBehind
      cases found
      rfl
    case isFalse =>
      obtain ⟨⟨value', rest'⟩, isRead, same⟩ := Option.map_eq_some_iff.mp found
      cases same
      rw [List.cons_append, induction isRead]

theorem untilClose_step {state : Nat} (inRange : state ≤ 2) (goesOn : ¬ (state = 2 ∧ byte = 62)) :
    cdataState state byte ≤ 2 ∧
    ∃ front, untilClose (List.replicate state 93 ++ byte :: rest) =
      (untilClose (List.replicate (cdataState state byte) 93 ++ rest)).map
        fun read => (front ++ read.1, read.2) := by
  by_cases bracket : byte = 93
  · subst bracket
    obtain rfl | rfl | rfl : state = 0 ∨ state = 1 ∨ state = 2 := by omega
    · exact ⟨by decide, [], by simp [cdataState]⟩
    · exact ⟨by decide, [], by simp [cdataState]⟩
    · refine ⟨by decide, [93], ?_⟩
      exact untilClose_third (by decide)
  · obtain rfl | rfl | rfl : state = 0 ∨ state = 1 ∨ state = 2 := by omega
    · refine ⟨by simp [cdataState, bracket], [byte], ?_⟩
      rw [List.replicate_zero, List.nil_append, untilClose_cons_other bracket]
      simp [cdataState, bracket]
    · refine ⟨by simp [cdataState, bracket], [93, byte], ?_⟩
      rw [List.replicate_one, List.singleton_append, untilClose_second_other bracket]
      simp [cdataState, bracket]
    · refine ⟨by simp [cdataState, bracket], [93, 93, byte], ?_⟩
      have other : byte ≠ 62 := fun isEnd => goesOn ⟨rfl, isEnd⟩
      change untilClose (93 :: 93 :: byte :: rest) = _
      rw [untilClose_third other, untilClose_second_other bracket, Option.map_map]
      simp [cdataState, bracket, Function.comp_def]

theorem outcome_cdataLoop {fuel state : Nat} (inRange : state ≤ 2) (synced : scan.Synced)
    (enough : scan.text.length < fuel) :
    (untilClose (List.replicate state 93 ++ scan.text) = none →
      outcome (cdataLoop fuel state) scan = .failed) ∧
    ∀ value rest, untilClose (List.replicate state 93 ++ scan.text) = some (value, rest) →
      outcome (cdataLoop fuel state) scan = .ended ((), scan.reach (62 :: rest) 62) := by
  induction fuel generalizing scan state with
  | zero => exact absurd enough (Nat.not_lt_zero _)
  | succ fuel induction =>
    rcases isText : scan.text with _ | ⟨byte, rest⟩
    · have failed : outcome (cdataLoop (fuel + 1) state) scan = .failed := by
        rw [cdataLoop, outcome_bind_of_failed (outcome_getc_nil synced isText)]
      refine ⟨fun _ => failed, fun value rest found => ?_⟩
      have closed := congrArg List.length (untilClose_eq found)
      rw [List.append_nil, List.length_replicate, List.length_append, List.length_cons,
        List.length_cons, List.length_cons] at closed
      omega
    · have look : outcome getc scan = .ended ((), scan.reach (byte :: rest) byte) :=
        outcome_getc synced isText
      by_cases atEnd : state = 2 ∧ byte = 62
      · have ended : outcome (cdataLoop (fuel + 1) state) scan =
            .ended ((), scan.reach (byte :: rest) byte) := by
          rw [cdataLoop, outcome_bind_of_ended look, outcome_gets_bind, c_reach, if_pos atEnd,
            outcome_pure]
        obtain ⟨rfl, rfl⟩ := atEnd
        have found : untilClose (List.replicate 2 93 ++ 62 :: rest) = some ([], rest) := by
          simp [untilClose, List.replicate]
        rw [found]
        refine ⟨fun isNone => (by cases isNone), fun value behind isFound => ?_⟩
        cases isFound
        exact ended
      · have goesOn : outcome (cdataLoop (fuel + 1) state) scan =
            outcome (cdataLoop fuel (cdataState state byte)) (scan.reach rest byte) := by
          rw [cdataLoop, outcome_bind_of_ended look, outcome_gets_bind, c_reach, if_neg atEnd,
            outcome_bind_of_ended (outcome_next (isText ▸ Nat.le_refl _))]
        obtain ⟨inRangeNext, front, isStep⟩ := @untilClose_step rest byte state inRange atEnd
        rw [isText, List.length_cons] at enough
        obtain ⟨failed, ended⟩ := @induction (scan.reach rest byte) (cdataState state byte)
          inRangeNext (reach_synced _ _ _) (Nat.lt_of_succ_lt_succ enough)
        rw [text_reach] at failed ended
        rw [isStep, goesOn]
        refine ⟨fun isNone => failed (Option.map_eq_none_iff.mp isNone), fun value behind found => ?_⟩
        obtain ⟨⟨value', rest'⟩, isRead, same⟩ := Option.map_eq_some_iff.mp found
        cases same
        have closed := congrArg List.length (untilClose_eq isRead)
        rw [ended _ _ isRead, reach_reach]
        · rw [List.length_append, List.length_replicate, List.length_append, List.length_cons,
            List.length_cons, List.length_cons] at closed
          rw [List.length_cons]
          omega
        · rw [isText, List.length_cons]
          exact Nat.le_succ _

theorem strncmp_eq (text string : Bytes) :
    strncmp text string =
      if string.isPrefixOf text then some true
      else if text.isPrefixOf string then none else some false := by
  induction string generalizing text with
  | nil =>
    rw [if_pos List.isPrefixOf_nil_left]
    cases text with
    | nil => rfl
    | cons byte text => rfl
  | cons char string induction =>
    cases text with
    | nil => rfl
    | cons byte text =>
      rw [strncmp, List.isPrefixOf_cons_cons, List.isPrefixOf_cons_cons]
      by_cases same : byte = char
      · subst same
        rw [if_pos rfl, induction, beq_self_eq_true, Bool.true_and, Bool.true_and]
      · rw [if_neg same, beq_eq_false_iff_ne.mpr same, beq_eq_false_iff_ne.mpr (Ne.symm same)]
        rfl

def Scan.took (scan : Scan) (extent : Extent) (c : UInt8) : Scan :=
  { scan.reach extent.rest c with
    fieldtext := scan.count + (scan.text.length - extent.start.length)
    fieldlength := extent.length }

theorem outcome_readCdataValue {content : Bytes}
    (within : content.length ≤ scan.text.length) (opens : cdataStart.isPrefixOf content = true) :
    outcome readCdataValue (scan.reach content byte) =
      (closedExtent (content.drop 9)).bind fun extent => .ended ((), scan.took extent 62) := by
  obtain ⟨inner, rfl⟩ := List.isPrefixOf_iff_prefix.mp opens
  have isInner : (cdataStart ++ inner).drop 9 = inner := List.drop_left' rfl
  have isLength : (cdataStart ++ inner).length = inner.length + 9 := by
    rw [List.length_append, Nat.add_comm]
    rfl
  rw [isLength] at within
  have moved : ({ scan.reach (cdataStart ++ inner) byte with
      text := (cdataStart ++ inner).drop 9,
      count := (scan.reach (cdataStart ++ inner) byte).count + 9,
      left := (scan.reach (cdataStart ++ inner) byte).left - 9,
      fieldtext := (scan.reach (cdataStart ++ inner) byte).count + 9 } : Scan) =
      { scan with fieldtext := scan.count + (scan.text.length - inner.length) }.reach
        inner byte := by
    simp only [Scan.reach, isInner, isLength, Scan.mk.injEq, true_and, and_true]
    omega
  rw [readCdataValue, outcome_gets_bind, outcome_update_bind, outcome_update_bind,
    outcome_gets_bind]
  refine Eq.trans (congrArg (outcome _) moved) ?_
  generalize isStart : ({ scan with
    fieldtext := scan.count + (scan.text.length - inner.length) } : Scan) = start
  obtain ⟨failed, ended⟩ := @outcome_cdataLoop (start.reach inner byte)
    ((scan.reach (cdataStart ++ inner) byte).text.drop 9).length.succ 0 (Nat.zero_le _)
    (reach_synced _ _ _) (by rw [text_reach, text_reach, isInner]; exact Nat.lt_succ_self _)
  rw [isInner, closedExtent]
  rcases found : untilClose inner with _ | ⟨value, rest⟩
  · rw [outcome_bind_of_failed (failed found)]
    rfl
  · have closed := congrArg List.length (untilClose_eq found)
    rw [List.length_append, List.length_cons, List.length_cons, List.length_cons] at closed
    have isText : start.text = scan.text := by rw [← isStart]
    have inside : inner.length ≤ start.text.length := by rw [isText]; omega
    have shorter : (62 :: rest).length ≤ inner.length := by rw [List.length_cons]; omega
    rw [outcome_bind_of_ended (ended value rest found), reach_reach shorter inside,
      outcome_bind_of_ended (outcome_next (shorter.trans inside)), outcome_update,
      Outcome.ended_bind, ← isStart]
    simp only [Scan.took, Scan.reach, Outcome.ended.injEq, Prod.mk.injEq, Scan.mk.injEq, true_and,
      isLength]
    omega

theorem outcome_readCdata (synced : scan.Synced) :
    outcome readCdata scan =
      (cdata scan.text).bind fun extent => .ended ((), scan.took extent 62) := by
  rw [readCdata, cdata]
  rcases isDrop : scan.text.dropWhile isSpace with _ | ⟨byte, rest⟩
  · rw [outcome_bind_of_failed (outcome_skipSpace_nil synced isDrop)]
    rfl
  · have within : (byte :: rest).length ≤ scan.text.length := by
      rw [← isDrop]
      exact (List.dropWhile_sublist _).length_le
    have compared := strncmp_eq (byte :: rest) cdataStart
    rw [outcome_bind_of_ended (outcome_skipSpace_cons synced isDrop), outcome_gets_bind,
      outcome_require_bind, text_reach]
    by_cases opens : cdataStart.isPrefixOf (byte :: rest)
    · rw [if_pos opens] at compared
      simp only [if_pos opens]
      rw [if_pos (by rw [compared]; rfl), outcome_ensure_bind, if_pos compared]
      exact outcome_readCdataValue within opens
    · rw [if_neg opens] at compared
      by_cases cut : (byte :: rest).isPrefixOf cdataStart
      · rw [if_pos cut] at compared
        simp only [if_neg opens, if_pos cut]
        rw [if_neg (by rw [compared]; decide)]
        rfl
      · rw [if_neg cut] at compared
        simp only [if_neg opens, if_neg cut]
        rw [if_pos (by rw [compared]; rfl), outcome_ensure_bind, if_neg (by simp [compared])]
        rfl

theorem outcome_readText (synced : scan.Synced) (isStart : scan.count = 0) :
    ∃ c, outcome readText scan = .ended ((), scan.took (plainText scan.text) c) := by
  obtain ⟨c, isLoop, -⟩ := textRound_takes.loop (show
    ({ scan with fieldtext := scan.count } : Scan).Synced from synced)
  refine ⟨c, ?_⟩
  have isLength := congrArg List.length
    (List.takeWhile_append_dropWhile (p := fun byte => decide (byte ≠ 60)) (l := scan.text))
  rw [List.length_append] at isLength
  rw [readText, outcome_update_bind, outcome_bind_of_ended isLoop, outcome_update]
  simp only [Scan.took, Scan.reach, plainText, Outcome.ended.injEq, Prod.mk.injEq,
    Scan.mk.injEq, true_and]
  omega

section Calls

variable {xmltext : Bytes} {pos room : Nat}

theorem start_fresh (within : pos ≤ xmltext.length) :
    (Scan.start xmltext pos room).Fresh where
  synced := by
    change (xmltext.length : Int) - pos = (xmltext.drop pos).length
    rw [List.length_drop]
    omega
  unnamed := rfl

theorem call_readRootnodeStart (within : pos ≤ xmltext.length) :
    call xmltext pos room readRootnodeStart = (rootStart room (xmltext.drop pos)).bind fun read =>
      .ended (((Scan.start xmltext pos room).reach read.2 62).named read.1) := by
  rw [call, outcome_readRootnodeStart (start_fresh within)]
  change ((rootStart room (xmltext.drop pos)).bind _).bind _ = _
  cases rootStart room (xmltext.drop pos) <;> rfl

theorem call_readFieldStart (within : pos ≤ xmltext.length) :
    call xmltext pos room readFieldStart = (fieldStart room (xmltext.drop pos)).bind fun read =>
      .ended (((Scan.start xmltext pos room).reach read.2 62).named read.1) := by
  rw [call, outcome_readFieldStart (start_fresh within)]
  change ((fieldStart room (xmltext.drop pos)).bind _).bind _ = _
  cases fieldStart room (xmltext.drop pos) <;> rfl

theorem call_readEnd (name : Bytes) (within : pos ≤ xmltext.length) :
    call xmltext pos room (readEnd name) = (tagEnd name (xmltext.drop pos)).bind fun rest =>
      .ended ((Scan.start xmltext pos room).reach rest 62) := by
  rw [call, outcome_readEnd name (start_fresh within).synced]
  change ((tagEnd name (xmltext.drop pos)).bind _).bind _ = _
  cases tagEnd name (xmltext.drop pos) <;> rfl

theorem readValue_eq (within : pos ≤ xmltext.length) :
    ∃ c, readValue xmltext pos room = (valueFrom (xmltext.drop pos)).bind fun extent =>
      .ended ((Scan.start xmltext pos room).took extent c) := by
  have isCdata : call xmltext pos room readCdata =
      (cdata (xmltext.drop pos)).bind fun extent =>
        .ended ((Scan.start xmltext pos room).took extent 62) := by
    rw [call, outcome_readCdata (start_fresh within).synced]
    change ((cdata (xmltext.drop pos)).bind _).bind _ = _
    cases cdata (xmltext.drop pos) <;> rfl
  rw [readValue, valueFrom, isCdata]
  rcases cdata (xmltext.drop pos) with _ | _ | extent
  · exact ⟨62, rfl⟩
  · obtain ⟨c, isText⟩ := outcome_readText (@start_fresh xmltext pos room within).synced rfl
    refine ⟨c, ?_⟩
    change call xmltext pos room readText = _
    rw [call, isText]
    rfl
  · exact ⟨62, rfl⟩

end Calls

end Wisebot.SimpleXml
