import Wisebot.Common.MemfileCalls
import Wisebot.Lib.Occurrence

namespace Wisebot.Http

open Common Lib Lib.Occurrence

/-! `_http_buffering_receiveUntil` of `mod_http_client/http_buffering.c`. -/

def constBufSize : Nat := 512

def stringFrom (bytes : List UInt8) : List UInt8 := bytes.takeWhile (· ≠ 0)

/-- The inner loop over `temp`, from `afterNullCh` on; behind its bytes `temp` has a NUL. -/
def searchWindow (pattern : List UInt8) : (rounds place : Nat) → List UInt8 → Option Nat
  | 0, _, _ => none
  | rounds + 1, place, temp =>
    if temp = [] then none
    else
      match firstOccurrence pattern (stringFrom temp) with
      | some found => some (place + found)
      | none =>
        let nullPos := (stringFrom temp).length
        if nullPos = temp.length then none
        else searchWindow pattern rounds (place + (nullPos + 1)) (temp.drop (nullPos + 1))

/-- The loop over the buffer; `none` is an access outside of its memory, or no end in the
rounds. -/
def receiveLoop (pattern : List UInt8) (initOffset : Nat) :
    (rounds lastOffset : Nat) → Memfile → Option (Memfile × Int)
  | 0, _, _ => none
  | rounds + 1, lastOffset, buffer =>
    (memfileRead (memfileSetOffset buffer lastOffset) (constBufSize - 1)).bind fun received =>
      let len := received.2.length
      if len < pattern.length then some (memfileSetOffset received.1 initOffset, -1)
      else
        match searchWindow pattern len 0 received.2 with
        | some found =>
          some (memfileSetOffset received.1 initOffset,
            toInt (subLong (found + pattern.length + lastOffset) initOffset))
        | none =>
          receiveLoop pattern initOffset rounds (lastOffset + (len - pattern.length + 1))
            received.1

def receiveUntil (buffer : Memfile) (pattern : List UInt8) : Option (Memfile × Int) :=
  if pattern.length = 0 ∨ constBufSize ≤ pattern.length then some (buffer, -1)
  else receiveLoop pattern buffer.offset (buffer.mSize + 1) buffer.offset buffer

section Window

variable {pattern : List UInt8} (notEmpty : pattern ≠ []) (string : 0 ∉ pattern)

include notEmpty string

theorem searchWindow_eq {rounds place : Nat} {temp : List UInt8} (enough : temp.length ≤ rounds) :
    searchWindow pattern rounds place temp =
      (firstOccurrence pattern temp).map (place + ·) := by
  induction rounds generalizing place temp with
  | zero =>
    obtain rfl : temp = [] := List.length_eq_zero_iff.mp (Nat.le_zero.mp enough)
    rw [firstOccurrence_nil notEmpty]
    rfl
  | succ rounds ih =>
    rw [searchWindow]
    by_cases isEmpty : temp = []
    · rw [if_pos isEmpty, isEmpty, firstOccurrence_nil notEmpty]
      rfl
    · rw [if_neg isEmpty]
      have whole : stringFrom temp ++ temp.dropWhile (· ≠ 0) = temp :=
        List.takeWhile_append_dropWhile
      cases behind : temp.dropWhile (· ≠ 0) with
      | nil =>
        rw [behind, List.append_nil] at whole
        rw [whole]
        cases firstOccurrence pattern temp with
        | none => exact if_pos rfl
        | some found => rfl
      | cons null more =>
        have isNull : null = 0 := by
          have := List.head?_dropWhile_not (fun byte : UInt8 => byte ≠ 0) temp
          rw [behind] at this
          simpa using this
        subst isNull
        rw [behind] at whole
        have length : (stringFrom temp).length + (more.length + 1) = temp.length := by
          rw [← List.length_cons, ← List.length_append, whole]
        have isRest : temp.drop ((stringFrom temp).length + 1) = more := by
          have dropped := congrArg (List.drop ((stringFrom temp).length + 1)) whole
          rw [← dropped, List.drop_length_add_append]
          rfl
        have parted := @firstOccurrence_separator _ _ _ (stringFrom temp) more notEmpty 0 string
        rw [whole] at parted
        rw [parted]
        cases found : firstOccurrence pattern (stringFrom temp) with
        | some place => rfl
        | none =>
          dsimp only
          rw [if_neg (by omega), isRest, ih (by omega), Option.none_or, Option.map_map]
          congr 1
          funext found
          simp only [Function.comp_apply]
          omega

end Window

/-- The bytes from the cursor to the end of the first occurrence, or -1. -/
def occurrenceEnd (pattern unread : List UInt8) : Int :=
  ((firstOccurrence pattern unread).map fun place =>
    ((place + pattern.length : Nat) : Int)).getD (-1)

theorem toInt_lt (value : Nat) : toInt value < 2147483648 := by
  have bound := Int.bmod_lt (x := (value : Int)) (m := 4294967296) (by decide)
  exact bound

theorem receiveLoop_spec {pattern : List UInt8} (notEmpty : pattern ≠ []) (string : 0 ∉ pattern)
    (short : pattern.length < constBufSize) {initOffset rounds lastOffset : Nat}
    {buffer : Memfile} (allocated : Allocated buffer) (later : initOffset ≤ lastOffset)
    (inside : lastOffset ≤ buffer.mSize) (enough : buffer.mSize - lastOffset < rounds) :
    ∃ after, receiveLoop pattern initOffset rounds lastOffset buffer =
        some (after,
          ((firstOccurrence pattern (buffer.view.contents.drop lastOffset)).map fun place =>
            toInt (place + pattern.length + (lastOffset - initOffset))).getD (-1)) ∧
      after.view = ⟨buffer.view.contents, initOffset⟩ := by
  induction rounds generalizing lastOffset buffer with
  | zero => exact absurd enough (Nat.not_lt_zero _)
  | succ rounds ih =>
    have limit := allocated.size_lt
    have atOffset : Allocated (memfileSetOffset buffer lastOffset) :=
      { allocated with offset_lt := inside.trans_lt limit }
    have nothing : NothingBehind (memfileSetOffset buffer lastOffset) := by
      intro atEnd
      have isEnd : lastOffset = buffer.mSize := Nat.le_antisymm inside atEnd
      change toInt (subLong buffer.mSize lastOffset) ≤ 0
      rw [sizeLimit_eq] at limit
      rw [isEnd, subLong_of_le (le_refl _) (by omega), Nat.sub_self]
      exact le_refl _
    obtain ⟨after, isRead, isAllocated, isView, sameSize⟩ :=
      atOffset.read (by decide : constBufSize - 1 < 2 ^ 31) nothing
    rw [receiveLoop, isRead, Option.bind_some]
    dsimp only
    generalize isTemp : (memfileSetOffset buffer lastOffset).view.ahead (constBufSize - 1) = temp
    have isFront : (buffer.view.contents.drop lastOffset).take (constBufSize - 1) = temp := isTemp
    have whole : temp ++ (buffer.view.contents.drop lastOffset).drop (constBufSize - 1) =
        buffer.view.contents.drop lastOffset := by
      rw [← isFront, List.take_append_drop]
    have length : temp.length = min (constBufSize - 1) (buffer.mSize - lastOffset) := by
      rw [← isFront, List.length_take, List.length_drop, length_view]
    have sameContents : after.view.contents = buffer.view.contents := by
      rw [isView]
      rfl
    have restored : ∀ offset, (memfileSetOffset after offset).view =
        ⟨buffer.view.contents, offset⟩ := by
      intro offset
      rw [← sameContents]
      rfl
    split
    case isTrue few =>
      have tooShort : (buffer.view.contents.drop lastOffset).length < pattern.length := by
        rw [List.length_drop, length_view]
        omega
      rw [firstOccurrence_short tooShort]
      exact ⟨_, rfl, restored initOffset⟩
    case isFalse many =>
      rw [searchWindow_eq notEmpty string (le_refl _)]
      cases found : firstOccurrence pattern temp with
      | some place =>
        have isFirst := @firstOccurrence_append _ _ _ _
          ((buffer.view.contents.drop lastOffset).drop (constBufSize - 1)) _ found
        rw [whole] at isFirst
        have inWindow := length_le_of_found found
        rw [sizeLimit_eq] at limit
        rw [isFirst]
        have isCount : subLong (0 + place + pattern.length + lastOffset) initOffset =
            place + pattern.length + (lastOffset - initOffset) := by
          rw [subLong_of_le (by omega) (by omega), Nat.zero_add, Nat.add_sub_assoc later]
        refine ⟨memfileSetOffset after initOffset, ?_, restored initOffset⟩
        rw [Option.map_some, Option.map_some, Option.getD_some]
        dsimp only
        rw [isCount]
      | none =>
        have goesOn := @firstOccurrence_behind _ _ _ _
          ((buffer.view.contents.drop lastOffset).drop (constBufSize - 1)) found
          (temp.length - pattern.length + 1) (by omega)
        rw [whole, List.drop_drop] at goesOn
        have patternLength : 0 < pattern.length := List.length_pos_iff.mpr notEmpty
        have sameSize' : after.mSize = buffer.mSize := sameSize
        obtain ⟨final, ran, isFinal⟩ := @ih (lastOffset + (temp.length - pattern.length + 1)) after
          isAllocated (by omega) (by omega) (by omega)
        rw [sameContents] at ran isFinal
        refine ⟨final, ?_, isFinal⟩
        have isAnswer : ∀ place, toInt (place + pattern.length +
              (lastOffset + (temp.length - pattern.length + 1) - initOffset)) =
            toInt (place + (temp.length - pattern.length + 1) + pattern.length +
              (lastOffset - initOffset)) := by
          intro place
          congr 1
          omega
        rw [goesOn, Option.map_map]
        simp only [Option.map_none, Function.comp_def, ← isAnswer]
        exact ran

/-- The search returns as many bytes as the first occurrence ends behind the cursor, or -1
if there is none, and leaves the cursor, exactly when that number is an `int`. -/
theorem receiveUntil_first_iff {buffer : Memfile} (allocated : Allocated buffer)
    (inside : buffer.offset ≤ buffer.mSize) {pattern : List UInt8} (notEmpty : pattern ≠ [])
    (string : 0 ∉ pattern) (short : pattern.length < constBufSize) :
    (∃ after, receiveUntil buffer pattern =
        some (after, occurrenceEnd pattern (buffer.view.contents.drop buffer.offset)) ∧
      after.view = buffer.view) ↔
      occurrenceEnd pattern (buffer.view.contents.drop buffer.offset) < 2147483648 := by
  obtain ⟨after, ran, isView⟩ := receiveLoop_spec notEmpty string short allocated
    (le_refl buffer.offset) inside (Nat.lt_succ_of_le (Nat.sub_le _ _))
  have positive : 0 < pattern.length := List.length_pos_iff.mpr notEmpty
  have isRun : receiveUntil buffer pattern =
      receiveLoop pattern buffer.offset (buffer.mSize + 1) buffer.offset buffer := if_neg (by omega)
  rw [isRun, ran, occurrenceEnd]
  cases firstOccurrence pattern (buffer.view.contents.drop buffer.offset) with
  | none =>
    rw [Option.map_none, Option.map_none]
    exact iff_of_true ⟨after, rfl, isView⟩ (by decide)
  | some place =>
    rw [Option.map_some, Option.map_some, Option.getD_some, Option.getD_some, Nat.sub_self,
      Nat.add_zero]
    constructor
    · rintro ⟨other, same, _⟩
      rw [← (Prod.mk.inj (Option.some.inj same)).2]
      exact toInt_lt _
    · intro isInt
      rw [toInt_of_lt (by omega)]
      exact ⟨after, rfl, isView⟩

/-- A block with three bytes, of which the last two are the pattern. -/
def smallBuffer : Memfile :=
  { offset := 1, mSize := 3, maxBlock := 1, tableSize := 1
    bufBlock := [fun index => if index = 2 then 10 else 13] }

theorem receiveUntil_first_two :
    ∃ after, receiveUntil smallBuffer [13, 10] =
        some (after, occurrenceEnd [13, 10] (smallBuffer.view.contents.drop smallBuffer.offset)) ∧
      after.view = smallBuffer.view :=
  (receiveUntil_first_iff
    { inside := by decide, pointers := by decide, table := by decide, size_lt := by decide
      offset_lt := by decide } (by decide) (by decide) (by decide) (by decide)).mpr (by decide)

theorem firstOccurrence_replicate (count : Nat) {byte other : UInt8} (different : byte ≠ other) :
    firstOccurrence [other] (List.replicate count byte ++ [other]) = some count := by
  induction count with
  | zero => exact firstOccurrence_zero (List.prefix_refl _)
  | succ count ih =>
    have notThere : ¬ [other] <+: byte :: (List.replicate count byte ++ [other]) := by
      intro isThere
      exact different (List.cons_prefix_cons.mp isThere).1.symm
    rw [List.replicate_succ, List.cons_append, firstOccurrence_cons notThere, ih]
    rfl

/-- Blocks of the byte `a`, and one of the byte `b`, of which one byte is there. -/
def buffered (blocks : Nat) : Memfile :=
  { offset := 0, mSize := blockSize * blocks + 1, maxBlock := blocks + 1, tableSize := blocks + 1
    bufBlock := List.replicate blocks (fun _ => 97) ++ [fun _ => 98] }

theorem buffered_allocated {blocks : Nat} (small : blocks < 2147483647) :
    Allocated (buffered blocks) := by
  have length : (buffered blocks).bufBlock.length = blocks + 1 := by
    rw [buffered, List.length_append, List.length_replicate, List.length_singleton]
  have isSize : (buffered blocks).mSize = blockSize * blocks + 1 := rfl
  have isBlock : blockSize = 512 := rfl
  refine ⟨?_, length.le, le_refl _, ?_, ?_⟩
  · rw [length, isSize, isBlock]
    omega
  · rw [sizeLimit_eq, isSize, isBlock]
    omega
  · exact (Nat.zero_le _).trans_lt (by rw [sizeLimit_eq]; exact Nat.succ_pos _)

theorem buffered_contents (blocks : Nat) :
    (buffered blocks).view.contents = List.replicate (blockSize * blocks) 97 ++ [98] := by
  have isBlock : blockSize = 512 := rfl
  change (Blocks.flat blockSize (List.replicate blocks (fun _ => 97) ++ [fun _ => 98])).read 0
    (blockSize * blocks + 1) = _
  rw [Mem.read_add]
  congr 1
  · refine List.eq_replicate_iff.mpr ⟨Mem.length_read, fun byte within => ?_⟩
    obtain ⟨index, bound, rfl⟩ := List.getElem_of_mem within
    rw [Mem.length_read] at bound
    rw [Mem.getElem_read, Nat.zero_add, Blocks.flat_append _ (by rwa [List.length_replicate]),
      Blocks.flat, List.getD_eq_getElem?_getD, List.getElem?_replicate,
      if_pos (Nat.div_lt_of_lt_mul bound), Option.getD_some]
  · have isLast : (blockSize * blocks) / blockSize = blocks :=
      Nat.mul_div_cancel_left blocks (by rw [isBlock]; exact Nat.succ_pos _)
    rw [Mem.read, List.range_one, List.map_singleton, Nat.zero_add, Nat.add_zero, Blocks.flat,
      isLast, List.getD_eq_getElem?_getD,
      List.getElem?_append_right (List.length_replicate ..).le, List.length_replicate, Nat.sub_self]
    rfl

/-- The byte `b` behind `2 ^ 31` bytes `a`. -/
theorem receiveUntil_notFirst :
    Allocated (buffered 4194304) ∧
      ¬ ∃ after, receiveUntil (buffered 4194304) [98] =
          some (after, occurrenceEnd [98]
            ((buffered 4194304).view.contents.drop (buffered 4194304).offset)) ∧
        after.view = (buffered 4194304).view := by
  have allocated : Allocated (buffered 4194304) := buffered_allocated (by decide)
  refine ⟨allocated, ?_⟩
  rintro ⟨after, ran, _⟩
  obtain ⟨other, isRun, _⟩ := @receiveLoop_spec [98] (by decide) (by decide) (by decide) 0
    ((buffered 4194304).mSize + 1) 0 (buffered 4194304) allocated (le_refl _) (Nat.zero_le _)
    (Nat.lt_succ_of_le (Nat.sub_le _ _))
  have isLoop : receiveUntil (buffered 4194304) [98] =
      receiveLoop [98] 0 ((buffered 4194304).mSize + 1) 0 (buffered 4194304) :=
    if_neg (by decide)
  have found :
      firstOccurrence [98] ((buffered 4194304).view.contents.drop 0) = some 2147483648 := by
    rw [List.drop_zero, buffered_contents]
    exact firstOccurrence_replicate _ (by decide)
  have isEnd : occurrenceEnd [98] ((buffered 4194304).view.contents.drop
      (buffered 4194304).offset) = 2147483649 := by
    change occurrenceEnd [98] ((buffered 4194304).view.contents.drop 0) = _
    rw [occurrenceEnd, found]
    rfl
  rw [isEnd, isLoop, isRun, found, Option.map_some, Option.getD_some] at ran
  have isCount := (Prod.mk.inj (Option.some.inj ran)).2
  exact absurd (isCount.ge.trans_lt (toInt_lt _)) (by decide)

end Wisebot.Http
