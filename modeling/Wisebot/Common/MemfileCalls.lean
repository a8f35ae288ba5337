import Mathlib.Tactic.Ring
import Wisebot.Common.Memfile

namespace Wisebot.Common

open Lib Lib.Blocks

/-! What each call does to the bytes of a memfile and to its cursor. -/

def Memfile.view (this : Memfile) : CursorFile UInt8 where
  contents := (flat blockSize this.bufBlock).read 0 this.mSize
  cursor := this.offset

/-- Numbers of blocks are kept in an `int`. -/
def sizeLimit : Nat := blockSize * (2 ^ 31 - 1)

/-- The bytes lie in allocated blocks, the blocks in the table of pointers. -/
structure Allocated (this : Memfile) : Prop where
  inside : this.mSize ≤ blockSize * this.bufBlock.length
  pointers : this.bufBlock.length ≤ this.tableSize
  table : this.tableSize ≤ this.maxBlock
  size_lt : this.mSize < sizeLimit
  offset_lt : this.offset < sizeLimit

/-- A call that wants so many blocks finds them, makes a new table or has room in the table. -/
def TableHolds (this : Memfile) (wanted : Nat) : Prop :=
  wanted ≤ this.bufBlock.length ∨ this.maxBlock < wanted ∨ wanted ≤ this.tableSize

@[simp] theorem view_cursor (this : Memfile) : this.view.cursor = this.offset := rfl

@[simp] theorem length_view (this : Memfile) : this.view.contents.length = this.mSize :=
  Mem.length_read

theorem toInt_of_lt {value : Nat} (small : value < 2 ^ 31) : toInt value = value := by
  have divided := Int.bmod_def (value : Int) 4294967296
  have same : (value : Int).bmod 4294967296 = value := by omega
  exact same

/-- A cursor behind the end gives a difference that is not positive as an `int`. -/
def NothingBehind (this : Memfile) : Prop :=
  this.mSize ≤ this.offset → toInt (subLong this.mSize this.offset) ≤ 0

theorem subLong_of_le {first second : Nat} (le : second ≤ first) (small : first < 2 ^ 64) :
    subLong first second = first - second := by
  rw [subLong]
  omega

theorem sizeLimit_eq : sizeLimit = 1099511627264 := by decide

/-- What a call that adds blocks leaves. -/
structure Provided (heap : Heap) (this grown : Memfile) (wanted : Nat) (done : Bool) :
    Prop where
  allocated : Allocated grown
  view_eq : grown.view = this.view
  reached : done = true → wanted ≤ grown.bufBlock.length
  refused : done = false → heap.Refuses
  holds : done = true → ∀ needed, TableHolds this needed → TableHolds grown needed

theorem Memfile.view_append (this : Memfile) (more : List Mem) {maxBlock tableSize : Nat}
    (inside : this.mSize ≤ blockSize * this.bufBlock.length) :
    Memfile.view { this with
      maxBlock := maxBlock, tableSize := tableSize, bufBlock := this.bufBlock ++ more } =
      this.view := by
  have same : (flat blockSize (this.bufBlock ++ more)).read 0 this.mSize =
      (flat blockSize this.bufBlock).read 0 this.mSize := by
    apply Mem.read_congr
    intro index bound
    exact flat_append more (by omega)
  rw [view, view, same]

theorem Allocated.provide {this : Memfile} (heap : Heap) (allocated : Allocated this)
    {wanted : Nat} (holds : TableHolds this wanted) :
    ∃ grown done, provide heap this wanted = some (grown, done) ∧
      Provided heap this grown wanted done := by
  have inside := allocated.inside
  have pointers := allocated.pointers
  have table := allocated.table
  have within : ∀ more : List Mem, this.mSize ≤
      blockSize * (this.bufBlock ++ more).length := by
    intro more
    rw [List.length_append, Nat.mul_add]
    omega
  rw [Common.provide]
  by_cases enough : wanted ≤ this.bufBlock.length
  · rw [if_neg (by omega)]
    exact ⟨this, true, rfl, allocated, rfl, fun _ => enough, by simp,
      fun _ _ held => held⟩
  · rw [if_pos (by omega)]
    by_cases larger : this.maxBlock < wanted
    · rw [if_pos (by omega)]
      obtain ⟨room, raised⟩ := le_raiseMaxBlock wanted wanted this.maxBlock (by omega)
      simp only [Int.toNat_natCast]
      generalize raiseMaxBlock wanted wanted this.maxBlock = maxBlock at room raised ⊢
      by_cases called : heap.calloc
      · rw [if_pos called]
        obtain ⟨more, done, adding, total, reached, refused⟩ :=
          addBlocks_spec heap room (show (wanted : Int) ≤ this.bufBlock.length + wanted by omega)
            (by omega)
        refine ⟨{ this with
          maxBlock := maxBlock
          tableSize := maxBlock
          bufBlock := this.bufBlock ++ more }, done, ?_, ?_⟩
        · rw [adding]
          rfl
        · refine ⟨⟨within more, total, Nat.le_refl _, allocated.size_lt, allocated.offset_lt⟩,
            this.view_append more inside, fun isDone => Int.ofNat_le.mp (reached isDone),
            refused, ?_⟩
          intro _ needed _
          unfold TableHolds
          simp only
          omega
      · rw [if_neg called]
        exact ⟨_, _, rfl, ⟨inside, pointers, table.trans raised, allocated.size_lt,
          allocated.offset_lt⟩, rfl, by simp, fun _ => .inl (Bool.not_eq_true _ ▸ called),
          by simp⟩
    · rw [if_neg (by omega)]
      have room : wanted ≤ this.tableSize := by
        rcases holds with held | held | held <;> omega
      obtain ⟨more, done, adding, total, reached, refused⟩ :=
        addBlocks_spec heap (show (wanted : Int) ≤ this.tableSize by omega)
          (show (wanted : Int) ≤ this.bufBlock.length + wanted by omega) pointers
      refine ⟨{ this with bufBlock := this.bufBlock ++ more }, done, ?_, ?_⟩
      · simp only [Int.toNat_natCast, adding]
        rfl
      · refine ⟨⟨within more, total, table, allocated.size_lt, allocated.offset_lt⟩,
          this.view_append more inside, fun isDone => Int.ofNat_le.mp (reached isDone),
          refused, ?_⟩
        rintro _ needed (found | more | fits)
        · refine .inl ?_
          simp only [List.length_append]
          omega
        · exact .inr (.inl more)
        · exact .inr (.inr fits)

theorem appended_of_write {this after : Memfile} {bytes : List UInt8} (nonempty : bytes ≠ [])
    (flat_eq : flat blockSize after.bufBlock =
      (flat blockSize this.bufBlock).write this.offset bytes)
    (offset_eq : after.offset = this.offset + bytes.length)
    (size_eq : after.mSize = max this.mSize (this.offset + bytes.length)) :
    this.view.Appended bytes after.view := by
  refine .inr ⟨nonempty, offset_eq, ?_, ?_, ?_⟩
  · rw [length_view, length_view, size_eq, view_cursor]
  · intro index bound
    have inside : this.offset + index < after.mSize := by omega
    simp only [Memfile.view]
    rw [List.getElem?_eq_getElem (by rwa [Mem.length_read]), Mem.getElem_read, flat_eq,
      Nat.zero_add, Mem.write_apply_inside bound, List.getElem?_eq_getElem bound]
  · intro index bound outside
    rw [length_view] at bound
    have inside : index < after.mSize := by omega
    simp only [Memfile.view] at outside ⊢
    rw [List.getElem?_eq_getElem (by rwa [Mem.length_read]),
      List.getElem?_eq_getElem (by rwa [Mem.length_read]), Mem.getElem_read, Mem.getElem_read,
      flat_eq, Nat.zero_add, Mem.write_apply_outside outside]

/-- The number of blocks that `memfile_append` asks for. -/
def neededBlocks (this : Memfile) (size : Nat) : Nat := (this.offset + size) / blockSize + 1

/-- The blocks for `size` bytes more find their pointers and can be counted. -/
def Room (this : Memfile) (size : Nat) : Prop :=
  size = 0 ∨ TableHolds this (neededBlocks this size) ∧ neededBlocks this size < 2 ^ 31

theorem offset_lt_of_needed {this : Memfile} {size : Nat}
    (few : neededBlocks this size < 2 ^ 31) : this.offset + size < sizeLimit := by
  simp only [neededBlocks, blockSize] at few
  rw [sizeLimit_eq]
  omega

/-- `memfile_append` writes all bytes at the cursor, or returns -1 and changes neither the
bytes nor the cursor. -/
theorem Allocated.append {this : Memfile} (heap : Heap) (allocated : Allocated this)
    {buf : List UInt8} (room : Room this buf.length) :
    ∃ after value, memfileAppend heap this buf buf.length = some (after, value) ∧
      Allocated after ∧
      (value = buf.length ∧ this.view.Appended buf after.view ∧
          (∀ needed, TableHolds this needed → TableHolds after needed) ∨
        value = -1 ∧ heap.Refuses ∧ after.view = this.view) := by
  by_cases empty : buf.length = 0
  · obtain rfl := List.length_eq_zero_iff.mp empty
    exact ⟨this, 0, rfl, allocated, .inl ⟨rfl, .inl ⟨rfl, rfl⟩, fun _ held => held⟩⟩
  · have nonempty : buf ≠ [] := fun none => empty (by rw [none]; rfl)
    obtain ⟨holds, few⟩ := room.resolve_left empty
    obtain ⟨grown, done, providing, provided⟩ := allocated.provide heap holds
    have sameSize : grown.mSize = this.mSize := by
      rw [← length_view, provided.view_eq, length_view]
    have sameOffset : grown.offset = this.offset := by
      rw [← view_cursor, provided.view_eq, view_cursor]
    rw [memfileAppend, if_neg (by omega), if_neg (by omega), if_neg (by omega)]
    simp only [Int.toNat_natCast]
    have wanted : toInt ((this.offset + buf.length) / blockSize + 1) =
        neededBlocks this buf.length := toInt_of_lt few
    rw [wanted, providing]
    cases done with
    | false => exact ⟨grown, -1, rfl, provided.allocated,
        .inr ⟨rfl, provided.refused rfl, provided.view_eq⟩⟩
    | true =>
      have reached := provided.reached rfl
      have room : grown.offset + buf.length ≤ blockSize * grown.bufBlock.length := by
        simp only [neededBlocks, blockSize] at reached ⊢
        omega
      obtain ⟨stored, writing, sameLength, flat_eq⟩ := writeLoop_flat room
      have limit := offset_lt_of_needed few
      have old := provided.allocated
      have oldInside := old.inside
      have oldLimit := old.size_lt
      have size_eq : (if grown.mSize < grown.offset + buf.length then
          grown.offset + buf.length else grown.mSize) =
          max grown.mSize (grown.offset + buf.length) := by
        split <;> omega
      simp only [List.take_length, writing, size_eq]
      refine ⟨_, buf.length, rfl, ⟨?_, ?_, old.table, ?_, ?_⟩, .inl ⟨rfl, ?_, ?_⟩⟩
      · rw [sameLength]
        exact Nat.max_le.mpr ⟨oldInside, room⟩
      · rw [sameLength]
        exact old.pointers
      · exact Nat.max_lt.mpr ⟨oldLimit, by rwa [sameOffset]⟩
      · simp only
        rwa [sameOffset]
      · rw [← provided.view_eq]
        exact appended_of_write nonempty flat_eq rfl rfl
      · intro needed held
        rcases provided.holds rfl needed held with found | more | fits
        · exact .inl (found.trans (Nat.le_of_eq sameLength.symm))
        · exact .inr (.inl more)
        · exact .inr (.inr fits)

theorem ahead_view (this : Memfile) (size : Nat) :
    this.view.ahead size =
      (flat blockSize this.bufBlock).read this.offset (min size (this.mSize - this.offset)) := by
  rw [CursorFile.ahead, Memfile.view]
  by_cases behind : this.mSize ≤ this.offset
  · rw [List.drop_eq_nil_of_le (by rwa [Mem.length_read]), List.take_nil,
      Nat.sub_eq_zero_of_le behind, Nat.min_zero, Mem.read_zero]
  · obtain ⟨rest, length⟩ := Nat.exists_eq_add_of_le (Nat.le_of_not_le behind)
    rw [length, Mem.read_add, List.drop_left' Mem.length_read, Nat.zero_add,
      Nat.add_sub_cancel_left]
    by_cases short : size ≤ rest
    · rw [Mem.take_read _ _ short, Nat.min_eq_left short]
    · rw [List.take_of_length_le (by rw [Mem.length_read]; omega), Nat.min_eq_right (by omega)]

theorem Allocated.read {this : Memfile} (allocated : Allocated this) {size : Nat}
    (isInt : size < 2 ^ 31) (nothing : NothingBehind this) :
    ∃ after, memfileRead this size = some (after, this.view.ahead size) ∧ Allocated after ∧
      after.view = ⟨this.view.contents, this.view.cursor + (this.view.ahead size).length⟩ ∧
      after.mSize = this.mSize := by
  have inside := allocated.inside
  have limit := allocated.size_lt
  have offsetLimit := allocated.offset_lt
  have count : (if this.mSize < this.offset + size then
      toInt (subLong this.mSize this.offset) else (size : Int)).toNat =
      min size (this.mSize - this.offset) := by
    split
    case isFalse within =>
      rw [Int.toNat_natCast]
      omega
    case isTrue beyond =>
      rcases Nat.le_total this.mSize this.offset with behind | ahead
      · rw [Int.toNat_of_nonpos (nothing behind)]
        omega
      · rw [sizeLimit_eq] at limit
        rw [subLong_of_le ahead (by omega), toInt_of_lt (by omega), Int.toNat_natCast]
        omega
  have reading : readLoop this.bufBlock (min size (this.mSize - this.offset))
      (this.offset / blockSize) (this.offset % blockSize) = some (this.view.ahead size) := by
    rw [ahead_view]
    by_cases behind : this.mSize ≤ this.offset
    · rw [Nat.sub_eq_zero_of_le behind, Nat.min_zero]
      rfl
    · exact readLoop_flat (by omega)
  have length : (this.view.ahead size).length = min size (this.mSize - this.offset) := by
    rw [ahead_view, Mem.length_read]
  refine ⟨{ this with offset := this.offset + (this.view.ahead size).length }, ?_, ?_, rfl, rfl⟩
  · rw [memfileRead]
    simp only [count, reading]
  · refine { allocated with offset_lt := ?_ }
    simp only
    omega

theorem Memfile.view_take (this : Memfile) (blocks : List Mem) {size : Nat}
    (shorter : size ≤ this.mSize)
    (same : ∀ address < size, flat blockSize blocks address =
      flat blockSize this.bufBlock address) :
    Memfile.view { this with bufBlock := blocks, mSize := size } =
      ⟨this.view.contents.take size, this.view.cursor⟩ := by
  rw [view, view, Mem.take_read _ _ shorter]
  congr 1
  exact Mem.read_congr fun index bound => same _ (by rwa [Nat.zero_add])

theorem Allocated.setSize {this : Memfile} (heap : Heap) (allocated : Allocated this)
    {size : Nat} (shorter : size ≤ this.mSize)
    (holds : TableHolds this (size / blockSize + 1)) :
    ∃ after value, memfileSetSize heap this size = some (after, value) ∧ Allocated after ∧
      (value = toInt size ∧ after.view = ⟨this.view.contents.take size, this.view.cursor⟩ ∨
        value = -1 ∧ heap.Refuses ∧ after.view = this.view) := by
  have inside := allocated.inside
  have limit := allocated.size_lt
  rw [sizeLimit_eq] at limit
  have wanted : toInt (size / blockSize + 1) = ((size / blockSize + 1 : Nat) : Int) := by
    apply toInt_of_lt
    simp only [blockSize]
    omega
  rw [memfileSetSize]
  simp only [wanted]
  by_cases few : this.bufBlock.length < size / blockSize + 1
  · rw [if_pos (by omega)]
    obtain ⟨grown, done, providing, provided⟩ := allocated.provide heap holds
    rw [providing]
    have old := provided.allocated
    cases done with
    | false => exact ⟨grown, -1, rfl, old,
        .inr ⟨rfl, provided.refused rfl, provided.view_eq⟩⟩
    | true =>
      have sameSize : grown.mSize = this.mSize := by
        rw [← length_view, provided.view_eq, length_view]
      refine ⟨{ grown with mSize := size }, toInt size, rfl,
        { old with inside := ?_, size_lt := ?_ }, .inl ⟨rfl, ?_⟩⟩
      · exact (shorter.trans (Nat.le_of_eq sameSize.symm)).trans old.inside
      · exact Nat.lt_of_le_of_lt shorter allocated.size_lt
      · rw [← provided.view_eq]
        exact grown.view_take grown.bufBlock (by omega) fun _ _ => rfl
  · rw [if_neg (by omega), if_neg (Int.not_lt.mpr (Int.natCast_nonneg _))]
    have count : (((size / blockSize + 1 : Nat) : Int).toNat) = size / blockSize + 1 :=
      Int.toNat_natCast _
    rw [count]
    have kept : (this.bufBlock.take (size / blockSize + 1)).length = size / blockSize + 1 :=
      List.length_take_of_le (by omega)
    have fits : size < blockSize * (size / blockSize + 1) := by
      simp only [blockSize]
      omega
    refine ⟨{ this with
      bufBlock := this.bufBlock.take (size / blockSize + 1)
      mSize := size }, toInt size, rfl, ?_, .inl ⟨rfl, ?_⟩⟩
    · have pointers := allocated.pointers
      refine ⟨?_, ?_, allocated.table, Nat.lt_of_le_of_lt shorter allocated.size_lt,
        allocated.offset_lt⟩
      · rw [kept]
        exact fits.le
      · rw [kept]
        simp only
        omega
    · exact this.view_take _ shorter fun address bound => flat_take (bound.trans fits)

theorem Allocated.shift {this : Memfile} (allocated : Allocated this) {size : Nat}
    (inside : size ≤ this.mSize) (passed : size ≤ this.offset)
    (countable : this.mSize - size < 2 ^ 31) :
    ∃ after, memfileShift this size = some (after, toInt size) ∧ Allocated after ∧
      after.view = ⟨this.view.contents.drop size, this.view.cursor - size⟩ := by
  have room := allocated.inside
  have limit := allocated.size_lt
  have offsetLimit := allocated.offset_lt
  rw [sizeLimit_eq] at limit offsetLimit
  have moveSize : subLong this.mSize size = this.mSize - size :=
    subLong_of_le inside (by omega)
  have cursor : subLong this.offset size = this.offset - size :=
    subLong_of_le passed (by omega)
  obtain ⟨stored, shifting, sameLength, flat_eq⟩ := @shiftLoop_flat this.bufBlock size
    (this.mSize - size) 0 (by omega)
  refine ⟨{ this with
    bufBlock := stored
    mSize := this.mSize - size
    offset := this.offset - size }, ?_, ?_, ?_⟩
  · rw [memfileShift]
    simp only [moveSize, cursor, if_neg (Nat.not_le.mpr countable), shifting]
  · refine ⟨?_, ?_, allocated.table, ?_, ?_⟩
    · rw [sameLength]
      simp only
      omega
    · rw [sameLength]
      exact allocated.pointers
    · exact Nat.lt_of_le_of_lt (Nat.sub_le _ _) allocated.size_lt
    · exact Nat.lt_of_le_of_lt (Nat.sub_le _ _) allocated.offset_lt
  · have dropped : (flat blockSize stored).read 0 (this.mSize - size) =
        ((flat blockSize this.bufBlock).read 0 this.mSize).drop size := by
      obtain ⟨rest, length⟩ := Nat.exists_eq_add_of_le inside
      rw [length, Mem.read_add, List.drop_left' Mem.length_read, Nat.add_sub_cancel_left]
      apply List.ext_getElem
      · simp
      · intro index bound _
        rw [Mem.length_read] at bound
        rw [Mem.getElem_read, Mem.getElem_read, flat_eq, if_pos (by omega)]
        congr 1
        omega
    rw [Memfile.view, Memfile.view, dropped]

/-- The blocks for up to `size` bytes more find their pointers. -/
def RoomUpTo (this : Memfile) (size : Nat) : Prop :=
  ∀ part ≤ size, Room this part

/-- The bytes `data` were copied, or -1 was returned behind a part of them. -/
def Copied (heaps : Nat → Heap) (this mFile : Memfile) (data : List UInt8) (readLen : Nat)
    (after target : Memfile) (value : Int) : Prop :=
  value = (readLen + data.length : Nat) ∧
      after.view = ⟨this.view.contents, this.view.cursor + data.length⟩ ∧
      mFile.view.Appended data target.view ∨
    value = -1 ∧ (∃ k, (heaps k).Refuses) ∧ ∃ copied,
      after.view = ⟨this.view.contents, this.view.cursor + copied⟩ ∧
      mFile.view.Appended (data.take copied) target.view

theorem RoomUpTo.next {this grown : Memfile} {size : Nat}
    (room : RoomUpTo this (blockSize + size)) (cursor : grown.offset = this.offset + blockSize)
    (held : ∀ needed, TableHolds this needed → TableHolds grown needed) :
    RoomUpTo grown size := by
  intro part le
  have positive := blockSize_pos
  obtain ⟨holds, few⟩ := (room (blockSize + part) (by omega)).resolve_left (by omega)
  have same : neededBlocks grown part = neededBlocks this (blockSize + part) := by
    rw [neededBlocks, neededBlocks, cursor, Nat.add_assoc]
  rw [← same] at holds few
  exact .inr ⟨held _ holds, few⟩

theorem nothingBehind_of_reached {this : Memfile} (allocated : Allocated this)
    (within : this.offset ≤ this.mSize) : NothingBehind this := by
  intro behind
  have limit := allocated.size_lt
  rw [sizeLimit_eq] at limit
  have none : subLong this.mSize this.offset = 0 := by
    rw [subLong_of_le within (by omega)]
    omega
  rw [none]
  decide

theorem memfileSetOffset_self (this : Memfile) : memfileSetOffset this this.offset = this := rfl

theorem Allocated.copyLoop (heaps : Nat → Heap) {size : Nat} (isInt : size < 2 ^ 31)
    {fuel k readLen : Nat} {this mFile : Memfile} (source : Allocated this)
    (target : Allocated mFile) (enough : size < readLen + fuel) (within : readLen ≤ size)
    (nothing : NothingBehind this)
    (room : RoomUpTo mFile (this.view.ahead (size - readLen)).length) :
    ∃ after final value,
      copyLoop heaps size fuel k readLen this.offset this mFile = some (after, final, value) ∧
      Allocated after ∧ Allocated final ∧
      Copied heaps this mFile (this.view.ahead (size - readLen)) readLen after final value := by
  induction fuel generalizing k readLen this mFile with
  | zero => omega
  | succ fuel induction =>
    rw [Common.copyLoop]
    by_cases more : readLen < size
    case neg =>
      rw [if_neg more, Nat.sub_eq_zero_of_le (Nat.le_of_not_lt more)]
      exact ⟨this, mFile, readLen, rfl, source, target, .inl ⟨rfl, rfl, .inl ⟨rfl, rfl⟩⟩⟩
    case pos =>
      rw [if_pos more, memfileSetOffset_self]
      generalize chunk_eq : (if size - readLen < blockSize then size - readLen else blockSize) =
        chunk
      have chunkLe : chunk ≤ size - readLen := by
        rw [← chunk_eq]
        split <;> omega
      obtain ⟨next, reading, nextAllocated, nextView, nextSize⟩ :=
        source.read (show chunk < 2 ^ 31 by omega) nothing
      have bufLe := this.view.length_ahead_le chunk
      have part : (this.view.ahead chunk).length ≤ (this.view.ahead (size - readLen)).length := by
        simp only [ahead_view, Mem.length_read]
        omega
      obtain ⟨grown, len, appending, grownAllocated, outcome⟩ :=
        target.append (heaps k) (room _ part)
      simp only [reading, appending]
      rcases outcome with ⟨rfl, appended, held⟩ | ⟨rfl, refuses, unchanged⟩
      case inr =>
        refine ⟨memfileSetOffset next this.offset, grown, -1, if_pos (by decide), ?_,
          grownAllocated, .inr ⟨rfl, ⟨k, refuses⟩, 0, ?_, ?_⟩⟩
        · exact { nextAllocated with offset_lt := source.offset_lt }
        · have same : next.view.contents = this.view.contents := by rw [nextView]
          rw [← same]
          rfl
        · rw [List.take_zero, unchanged]
          exact .inl ⟨rfl, rfl⟩
      case inl =>
        rw [if_neg (by omega)]
        by_cases last : (this.view.ahead chunk).length < blockSize
        · -- fewer bytes than a line: nothing more is asked for or nothing more is there
          rw [if_pos (by omega)]
          have all : this.view.ahead (size - readLen) = this.view.ahead chunk := by
            by_cases small : size - readLen < blockSize
            · rw [if_pos small] at chunk_eq
              rw [chunk_eq]
            · rw [if_neg small] at chunk_eq
              obtain ⟨rest, length⟩ := Nat.exists_eq_add_of_le chunkLe
              rw [length]
              exact CursorFile.ahead_of_short (by omega) rest
          rw [all]
          exact ⟨next, grown, _, rfl, nextAllocated, grownAllocated,
            .inl ⟨by push_cast; rfl, nextView, appended⟩⟩
        · have positive := blockSize_pos
          have full : chunk = blockSize := by
            by_cases small : size - readLen < blockSize
            · rw [if_pos small] at chunk_eq
              omega
            · rw [if_neg small] at chunk_eq
              exact chunk_eq.symm
          have length : (this.view.ahead chunk).length = blockSize := by omega
          rw [if_neg (by omega), Int.toNat_natCast]
          have nextOffset : next.offset = this.offset + (this.view.ahead chunk).length := by
            rw [← view_cursor, nextView, view_cursor]
          have grownOffset : grown.offset = mFile.offset + blockSize := by
            rcases appended with ⟨none, _⟩ | ⟨_, written⟩
            · rw [none] at length
              cases length
            · rw [← view_cursor, written.cursor_eq, length, view_cursor]
          have nextWithin : next.offset ≤ next.mSize := by
            rw [ahead_view, Mem.length_read] at length
            rw [nextSize, nextOffset, ahead_view, Mem.length_read]
            omega
          have nextAhead : this.view.ahead (size - readLen) =
              this.view.ahead chunk ++ next.view.ahead (size - (readLen + blockSize)) := by
            have split : size - readLen = chunk + (size - (readLen + blockSize)) := by omega
            rw [split, CursorFile.ahead_add, nextView, length, full]
          rw [nextAhead, List.length_append, length] at room
          obtain ⟨after, final, value, copying, afterAllocated, finalAllocated, copied⟩ :=
            @induction (k + 1) (readLen + blockSize) next grown nextAllocated grownAllocated
              (by omega) (by omega) (nothingBehind_of_reached nextAllocated nextWithin)
              (room.next grownOffset held)
          rw [nextOffset, length] at copying
          rw [length]
          refine ⟨after, final, value, copying, afterAllocated, finalAllocated, ?_⟩
          rw [nextAhead]
          rcases copied with ⟨rfl, afterView, rest⟩ | ⟨rfl, refuses, count, afterView, rest⟩
          · refine .inl ⟨?_, ?_, appended.trans rest⟩
            · rw [List.length_append, length, Nat.add_assoc]
            · rw [afterView, nextView, List.length_append, Nat.add_assoc]
          · refine .inr ⟨rfl, refuses, blockSize + count, ?_, ?_⟩
            · rw [afterView, nextView, length, Nat.add_assoc]
            · rw [List.take_append, List.take_of_length_le (by omega), length,
                Nat.add_sub_cancel_left]
              exact appended.trans rest

end Wisebot.Common
