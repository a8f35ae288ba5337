import Wisebot.Common.MemfileCalls
import Wisebot.Lib.Transition

namespace Wisebot.Common

open Lib

/-! Runs of calls on any number of memfiles, against byte sequences with a cursor. -/

variable {ι : Type}

inductive FileCall (ι : Type) where
  | append (file : ι) (buf : List UInt8) (heap : Heap)
  | setOffset (file : ι) (offset : Nat)
  | read (file : ι) (size : Nat)
  | setSize (file : ι) (size : Nat) (heap : Heap)
  | shift (file : ι) (size : Nat)
  | read2memfile (source target : ι) (size : Nat) (heaps : Nat → Heap)

/-- The value a call returns and the bytes it stores in `buf`. -/
structure FileAnswer where
  value : Int
  buf : List UInt8

def fileCall [DecidableEq ι] (files : ι → Memfile) :
    FileCall ι → Option ((ι → Memfile) × FileAnswer)
  | .append file buf heap =>
    (memfileAppend heap (files file) buf buf.length).map fun result =>
      (Function.update files file result.1, ⟨result.2, []⟩)
  | .setOffset file offset =>
    some (Function.update files file (memfileSetOffset (files file) offset), ⟨0, []⟩)
  | .read file size =>
    (memfileRead (files file) size).map fun result =>
      (Function.update files file result.1, ⟨result.2.length, result.2⟩)
  | .setSize file size heap =>
    (memfileSetSize heap (files file) size).map fun result =>
      (Function.update files file result.1, ⟨result.2, []⟩)
  | .shift file size =>
    (memfileShift (files file) size).map fun result =>
      (Function.update files file result.1, ⟨result.2, []⟩)
  | .read2memfile source target size heaps =>
    (memfileRead2memfile heaps (files source) (files target) size).map fun result =>
      (Function.update (Function.update files source result.1) target result.2.1,
        ⟨result.2.2, []⟩)

def fileStep [DecidableEq ι] (files : ι → Memfile) (call : FileCall ι) : Option (ι → Memfile) :=
  (fileCall files call).map Prod.fst

/-- Sizes are values of `int`, cursors are set within the bytes, sizes only shrink, and a
shift drops bytes that are there and behind the cursor. -/
def Requested (files : ι → Memfile) : FileCall ι → Prop
  | .append _ buf _ => buf.length < 2 ^ 31
  | .setOffset file offset => offset ≤ (files file).mSize
  | .read _ size => size < 2 ^ 31
  | .setSize file size _ => size ≤ (files file).mSize
  | .shift file size => size ≤ min (files file).mSize (files file).offset
  | .read2memfile source target size _ => source ≠ target ∧ size < 2 ^ 31

/-- The table of pointers has the room the call relies on, and the numbers of blocks and
bytes the call counts are values of `int`. -/
def Counted (files : ι → Memfile) : FileCall ι → Prop
  | .append file buf _ => Room (files file) buf.length
  | .setOffset _ _ => True
  | .read file _ => NothingBehind (files file)
  | .setSize file size _ => TableHolds (files file) (size / blockSize + 1)
  | .shift file size => (files file).mSize - size < 2 ^ 31
  | .read2memfile source target size _ =>
    NothingBehind (files source) ∧
      RoomUpTo (files target) ((files source).view.ahead size).length

/-- What a call means for the byte sequences. A call that the heap refuses memory returns -1;
a copy may then have copied a part. -/
def Performs (before : ι → CursorFile UInt8) (after : ι → CursorFile UInt8)
    (answer : FileAnswer) : FileCall ι → Prop
  | .append file buf heap =>
    (∀ other, other ≠ file → after other = before other) ∧
      (answer.value = buf.length ∧ (before file).Appended buf (after file) ∨
        answer.value = -1 ∧ heap.Refuses ∧ after file = before file)
  | .setOffset file offset =>
    (∀ other, other ≠ file → after other = before other) ∧
      after file = ⟨(before file).contents, offset⟩
  | .read file size =>
    (∀ other, other ≠ file → after other = before other) ∧
      answer.buf = (before file).ahead size ∧ answer.value = answer.buf.length ∧
      after file = ⟨(before file).contents, (before file).cursor + answer.buf.length⟩
  | .setSize file size heap =>
    (∀ other, other ≠ file → after other = before other) ∧
      (answer.value = toInt size ∧
          after file = ⟨(before file).contents.take size, (before file).cursor⟩ ∨
        answer.value = -1 ∧ heap.Refuses ∧ after file = before file)
  | .shift file size =>
    (∀ other, other ≠ file → after other = before other) ∧
      answer.value = toInt size ∧
      after file = ⟨(before file).contents.drop size, (before file).cursor - size⟩
  | .read2memfile source target size heaps =>
    (∀ other, other ≠ source → other ≠ target → after other = before other) ∧
      (answer.value = ((before source).ahead size).length ∧
          after source = ⟨(before source).contents,
            (before source).cursor + ((before source).ahead size).length⟩ ∧
          (before target).Appended ((before source).ahead size) (after target) ∨
        answer.value = -1 ∧ (∃ k, (heaps k).Refuses) ∧ ∃ copied,
          after source = ⟨(before source).contents, (before source).cursor + copied⟩ ∧
          (before target).Appended (((before source).ahead size).take copied) (after target))

def views (files : ι → Memfile) : ι → CursorFile UInt8 := fun file => (files file).view

variable [DecidableEq ι]

theorem views_update (files : ι → Memfile) (file : ι) (this : Memfile) :
    (∀ other, other ≠ file → views (Function.update files file this) other =
      views files other) ∧
      views (Function.update files file this) file = this.view := by
  refine ⟨fun other differs => ?_, ?_⟩
  · rw [views, views, Function.update_of_ne differs]
  · rw [views, Function.update_self]

theorem allocated_update {files : ι → Memfile} (allocated : ∀ file, Allocated (files file))
    (file : ι) {this : Memfile} (changed : Allocated this) (other : ι) :
    Allocated (Function.update files file this other) := by
  by_cases same : other = file
  · subst same
    rwa [Function.update_self]
  · rw [Function.update_of_ne same]
    exact allocated other

theorem fileCall_performs {files : ι → Memfile} (allocated : ∀ file, Allocated (files file))
    {call : FileCall ι} (requested : Requested files call) (counted : Counted files call) :
    ∃ next answer, fileCall files call = some (next, answer) ∧
      (∀ file, Allocated (next file)) ∧ Performs (views files) (views next) answer call := by
  cases call with
  | append file buf heap =>
    obtain ⟨after, value, appending, afterAllocated, outcome⟩ :=
      (allocated file).append heap counted
    obtain ⟨others, same⟩ := views_update files file after
    refine ⟨_, ⟨value, []⟩, by rw [fileCall, appending]; rfl,
      allocated_update allocated file afterAllocated, others, ?_⟩
    rw [same]
    exact outcome.imp (fun done => ⟨done.1, done.2.1⟩) id
  | setOffset file offset =>
    obtain ⟨others, same⟩ := views_update files file (memfileSetOffset (files file) offset)
    have limit := (allocated file).size_lt
    exact ⟨_, _, rfl, allocated_update allocated file
      { allocated file with offset_lt := Nat.lt_of_le_of_lt requested limit }, others, same⟩
  | read file size =>
    obtain ⟨after, reading, afterAllocated, view, _⟩ := (allocated file).read requested counted
    obtain ⟨others, same⟩ := views_update files file after
    let buf := (files file).view.ahead size
    exact ⟨_, ⟨buf.length, buf⟩, by rw [fileCall, reading]; rfl,
      allocated_update allocated file afterAllocated, others, rfl, rfl, same.trans view⟩
  | setSize file size heap =>
    obtain ⟨after, value, setting, afterAllocated, outcome⟩ :=
      (allocated file).setSize heap requested counted
    obtain ⟨others, same⟩ := views_update files file after
    refine ⟨_, ⟨value, []⟩, by rw [fileCall, setting]; rfl,
      allocated_update allocated file afterAllocated, others, ?_⟩
    rw [same]
    exact outcome
  | shift file size =>
    obtain ⟨inside, passed⟩ := Nat.le_min.mp requested
    obtain ⟨after, shifting, afterAllocated, view⟩ :=
      (allocated file).shift inside passed counted
    obtain ⟨others, same⟩ := views_update files file after
    obtain ⟨value, isValue⟩ : ∃ value, value = toInt size := ⟨_, rfl⟩
    rw [← isValue] at shifting
    exact ⟨_, ⟨value, []⟩, by rw [fileCall, shifting]; rfl,
      allocated_update allocated file afterAllocated, others, isValue, same.trans view⟩
  | read2memfile source target size heaps =>
    obtain ⟨differ, isInt⟩ := requested
    obtain ⟨nothing, room⟩ := counted
    obtain ⟨after, final, value, copying, afterAllocated, finalAllocated, copied⟩ :=
      @Allocated.copyLoop heaps size isInt (size + 1) 0 0 (files source) (files target)
        (allocated source) (allocated target) (by omega) (by omega) nothing room
    obtain ⟨othersSource, sameSource⟩ := views_update files source after
    obtain ⟨othersTarget, sameTarget⟩ :=
      views_update (Function.update files source after) target final
    refine ⟨_, ⟨value, []⟩, by rw [fileCall, memfileRead2memfile, copying]; rfl,
      allocated_update (allocated_update allocated source afterAllocated) target
        finalAllocated, ?_, ?_⟩
    · intro other notSource notTarget
      rw [othersTarget other notTarget, othersSource other notSource]
    · rw [othersTarget source differ, sameSource, sameTarget]
      rw [Nat.sub_zero] at copied
      rcases copied with ⟨rfl, view, appended⟩ | failed
      · exact .inl ⟨by rw [Nat.zero_add]; rfl, view, appended⟩
      · exact .inr failed

theorem memfileNew_allocated : Allocated memfileNew :=
  ⟨Nat.zero_le _, Nat.zero_le _, Nat.le_refl _, by decide, by decide⟩

theorem Reach.allocated {files : ι → Memfile}
    (reached : Reach fileStep (fun files call => Requested files call ∧ Counted files call)
      (fun _ => memfileNew) files) : ∀ file, Allocated (files file) := by
  refine reached.invariant (fun files => ∀ file, Allocated (files file))
    (fun _ => memfileNew_allocated) ?_
  intro files call next allocated guard stepped
  obtain ⟨after, answer, called, afterAllocated, _⟩ :=
    fileCall_performs allocated guard.1 guard.2
  rw [fileStep, called] at stepped
  cases stepped
  exact afterAllocated

/-- In every run of requested calls that find the room they rely on and count within `int`,
each call touches allocated memory only and does to the memfiles what it means for byte
sequences with a cursor. -/
theorem memfile_refines {files : ι → Memfile} {call : FileCall ι}
    (reached : Reach fileStep (fun files call => Requested files call ∧ Counted files call)
      (fun _ => memfileNew) files)
    (requested : Requested files call) (counted : Counted files call) :
    ∃ next answer, fileCall files call = some (next, answer) ∧
      Performs (views files) (views next) answer call := by
  obtain ⟨next, answer, called, _, performs⟩ :=
    fileCall_performs (Reach.allocated reached) requested counted
  exact ⟨next, answer, called, performs⟩

def ample : Heap := { calloc := true, malloc := fun _ => some fun _ => 0 }

theorem memfile_refines_first_append :
    ∃ next answer, fileCall (fun _ : Unit => memfileNew) (.append () [1] ample) =
        some (next, answer) ∧
      Performs (views fun _ => memfileNew) (views next) answer (.append () [1] ample) :=
  memfile_refines .start (show 1 < 2 ^ 31 by decide) (.inr ⟨.inr (.inl (by decide)), by decide⟩)

/-- A memfile whose cursor is at the end and whose table holds or gives way. -/
structure Appendable (this : Memfile) : Prop where
  allocated : Allocated this
  atEnd : this.offset = this.mSize
  holds : ∀ needed, TableHolds this needed

theorem memfileNew_appendable : Appendable memfileNew where
  allocated := memfileNew_allocated
  atEnd := rfl
  holds needed := needed.eq_zero_or_pos.imp Nat.le_of_eq .inl

theorem Appendable.append {this : Memfile} (appendable : Appendable this) {buf : List UInt8}
    (nonempty : buf ≠ []) (few : neededBlocks this buf.length < 2 ^ 31) :
    ∃ after, memfileAppend ample this buf buf.length = some (after, (buf.length : Int)) ∧
      Appendable after ∧ after.mSize = this.mSize + buf.length := by
  have atEnd := appendable.atEnd
  obtain ⟨after, value, appending, afterAllocated, outcome⟩ :=
    appendable.allocated.append ample (.inr ⟨appendable.holds _, few⟩)
  rcases outcome with ⟨rfl, appended, held⟩ | ⟨_, refuses, _⟩
  · obtain ⟨_, written⟩ := appended.resolve_left fun none => nonempty none.1
    have cursor := written.cursor_eq
    have length := written.length_eq
    simp only [view_cursor, length_view] at cursor length
    exact ⟨after, appending, ⟨afterAllocated, by omega,
      fun needed => held needed (appendable.holds needed)⟩, by omega⟩
  · rcases refuses with refuses | ⟨index, refuses⟩
    · cases refuses
    · cases refuses

theorem Appendable.reach_append {files : Unit → Memfile}
    (reached : Reach fileStep Requested (fun _ => memfileNew) files)
    (appendable : Appendable (files ())) {count : Nat} (positive : 0 < count)
    (isInt : count < 2 ^ 31) (short : (files ()).mSize < 2 ^ 31) :
    ∃ next, Reach fileStep Requested (fun _ : Unit => memfileNew) next ∧
      Appendable (next ()) ∧ (next ()).mSize = (files ()).mSize + count := by
  have length : (List.replicate count (0 : UInt8)).length = count := List.length_replicate
  have few : neededBlocks (files ()) (List.replicate count (0 : UInt8)).length < 2 ^ 31 := by
    rw [neededBlocks, length, appendable.atEnd, blockSize]
    omega
  have nonempty : List.replicate count (0 : UInt8) ≠ [] := by
    rw [Ne, List.replicate_eq_nil_iff]
    omega
  obtain ⟨after, appending, afterAppendable, size⟩ := appendable.append nonempty few
  refine ⟨Function.update files () after,
    reached.step (.append () (List.replicate count 0) ample) ?_ ?_, ?_, ?_⟩
  · rwa [Requested, length]
  · rw [fileStep, fileCall, appending]
    rfl
  · rwa [Function.update_self]
  · rw [Function.update_self, size, length]

/-- After a failed append the pointers that the raised `maxBlock` promises are not there, and
the counter of a shift cannot count 2^31 bytes. -/
theorem fileCall_unallocated :
    (∃ (files : Unit → Memfile) (buf : List UInt8),
      Reach fileStep Requested (fun _ => memfileNew) files ∧
      Requested files (.append () buf ample) ∧ fileCall files (.append () buf ample) = none) ∧
    ∃ (files : Unit → Memfile) (size : Nat),
      Reach fileStep Requested (fun _ => memfileNew) files ∧
      Requested files (.shift () size) ∧ fileCall files (.shift () size) = none := by
  constructor
  · have wanted : toInt ((0 + 1) / blockSize + 1) = 1 := toInt_of_lt (by decide)
    have isInt : [(1 : UInt8)].length < 2 ^ 31 := by decide
    have failing : memfileAppend { ample with calloc := false } memfileNew [1]
        [(1 : UInt8)].length = some ({ memfileNew with maxBlock := 5 }, -1) := by
      simp [memfileAppend, wanted, memfileNew, provide, raiseMaxBlock, numAllocObj]
    have outside : memfileAppend ample { memfileNew with maxBlock := 5 } [1]
        [(1 : UInt8)].length = none := by
      simp [memfileAppend, wanted, memfileNew, provide, addBlocks]
    refine ⟨Function.update (fun _ => memfileNew) () { memfileNew with maxBlock := 5 }, [1],
      .step (.append () [1] { ample with calloc := false }) .start isInt ?_, isInt, ?_⟩
    · rw [fileStep, fileCall, failing]
      rfl
    · rw [fileCall, Function.update_self, outside]
      rfl
  · obtain ⟨first, firstReached, firstAppendable, firstSize⟩ :=
      @Appendable.reach_append (fun _ => memfileNew) .start memfileNew_appendable 2147483647
        (by decide) (by decide) (by decide)
    have firstCount : (first ()).mSize = 2147483647 := firstSize
    obtain ⟨files, reached, appendable, size⟩ :=
      firstAppendable.reach_append firstReached (show 0 < 2 by decide) (by decide) (by omega)
    have atEnd := appendable.atEnd
    refine ⟨files, 1, reached, ?_, ?_⟩
    · exact Nat.le_min.mpr ⟨by omega, by omega⟩
    · have moveSize : subLong (files ()).mSize 1 = 2147483648 := by
        rw [subLong_of_le (by omega) (by omega)]
        omega
      rw [fileCall, memfileShift, moveSize]
      rfl

end Wisebot.Common
