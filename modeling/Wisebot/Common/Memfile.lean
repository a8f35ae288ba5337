import Mathlib.Algebra.Order.Ring.Nat
import Mathlib.Data.Int.Order.Basic
import Wisebot.Lib.Blocks
import Wisebot.Lib.CursorFile

namespace Wisebot.Common

open Lib Lib.Blocks

/-! `common/memfile.c`: a file in memory, in blocks of `BLOCKSIZE` bytes behind a table of
pointers. A `none` result stands for an access outside the allocated memory or a signed
counter that overflows. -/

/-- `BLOCKSIZE`, that is `MEMFILE_LINE_LEN`. -/
def blockSize : Nat := 512

def numAllocObj : Nat := 5

/-- `memfile`; `tableSize` is the number of pointers `bufBlock` has room for, and
`bufBlock` holds the first `numBlock` blocks. -/
structure Memfile where
  offset : Nat
  mSize : Nat
  maxBlock : Nat
  tableSize : Nat
  bufBlock : List Mem

/-- What one call gets from the heap: whether there is room for a table of pointers, and
the bytes of a new block where there is room for one. -/
structure Heap where
  calloc : Bool
  malloc : Nat → Option Mem

/-- A value of `unsigned long` stored in an `int`. -/
def toInt (value : Nat) : Int := (value : Int).bmod (2 ^ 32)

/-- The difference of two values of `unsigned long`. -/
def subLong (first second : Nat) : Nat := (first + 2 ^ 64 - second) % 2 ^ 64

def memfileNew : Memfile :=
  { offset := 0, mSize := 0, maxBlock := 0, tableSize := 0, bufBlock := [] }

/-- `while (wanted > maxBlock) maxBlock += NUMALLOCOBJ`. -/
def raiseMaxBlock (wanted : Int) : (fuel maxBlock : Nat) → Nat
  | 0, maxBlock => maxBlock
  | fuel + 1, maxBlock =>
    if maxBlock < wanted then raiseMaxBlock wanted fuel (maxBlock + numAllocObj)
    else maxBlock

/-- `while (wanted > numBlock)`, and whether every block was allocated. -/
def addBlocks (heap : Heap) (tableSize : Nat) (wanted : Int) :
    Nat → List Mem → Option (List Mem × Bool)
  | 0, blocks => some (blocks, true)
  | fuel + 1, blocks =>
    if blocks.length < wanted then
      if tableSize ≤ blocks.length then none
      else match heap.malloc blocks.length with
        | none => some (blocks, false)
        | some block => addBlocks heap tableSize wanted fuel (blocks ++ [block])
    else some (blocks, true)

/-- The blocks that `memfile_setSize` and `memfile_append` add. -/
def provide (heap : Heap) (this : Memfile) (wanted : Int) : Option (Memfile × Bool) :=
  let withBlocks := fun this : Memfile =>
    (addBlocks heap this.tableSize wanted wanted.toNat this.bufBlock).map fun result =>
      ({ this with bufBlock := result.1 }, result.2)
  if this.bufBlock.length < wanted then
    if this.maxBlock < wanted then
      let maxBlock := raiseMaxBlock wanted wanted.toNat this.maxBlock
      if heap.calloc then
        withBlocks { this with maxBlock := maxBlock, tableSize := maxBlock }
      else some ({ this with maxBlock := maxBlock }, false)
    else withBlocks this
  else some (this, true)

def memfileSetSize (heap : Heap) (this : Memfile) (size : Nat) : Option (Memfile × Int) :=
  let wantedNumOfBlk := toInt (size / blockSize + 1)
  if this.bufBlock.length < wantedNumOfBlk then
    match provide heap this wantedNumOfBlk with
    | none => none
    | some (grown, false) => some (grown, -1)
    | some (grown, true) => some ({ grown with mSize := size }, toInt size)
  else if wantedNumOfBlk < 0 then none
  else some ({ this with
    bufBlock := this.bufBlock.take wantedNumOfBlk.toNat
    mSize := size }, toInt size)

/-- The loop of `memfile_shift`. -/
def shiftLoop (size : Nat) : (count i : Nat) → List Mem → Option (List Mem)
  | 0, _, blocks => some blocks
  | count + 1, i, blocks =>
    match load blocks ((size + i) / blockSize) ((size + i) % blockSize) with
    | none => none
    | some byte =>
      match store blocks (i / blockSize) (i % blockSize) byte with
      | none => none
      | some stored => shiftLoop size count (i + 1) stored

/-- The counter of the loop is an `int`. -/
def memfileShift (this : Memfile) (size : Nat) : Option (Memfile × Int) :=
  let moveSize := subLong this.mSize size
  if 2 ^ 31 ≤ moveSize then none
  else
    match shiftLoop size moveSize 0 this.bufBlock with
    | none => none
    | some blocks => some ({ this with
        bufBlock := blocks
        mSize := subLong this.mSize size
        offset := subLong this.offset size }, toInt size)

def memfileSetOffset (this : Memfile) (offset : Nat) : Memfile := { this with offset := offset }

/-- The loop of `memfile_read`: the bytes from a place on. -/
def readLoop (blocks : List Mem) : (count blkIdx blkOffset : Nat) → Option (List UInt8)
  | 0, _, _ => some []
  | count + 1, blkIdx, blkOffset =>
    match load blocks blkIdx blkOffset with
    | none => none
    | some byte =>
      let next := if blkOffset + 1 = blockSize then blkIdx + 1 else blkIdx
      let nextOffset := if blkOffset + 1 = blockSize then 0 else blkOffset + 1
      (readLoop blocks count next nextOffset).map (byte :: ·)

/-- The bytes that are read stand for `buf`, their number is what the call returns. -/
def memfileRead (this : Memfile) (size : Nat) : Option (Memfile × List UInt8) :=
  let size : Int :=
    if this.mSize < this.offset + size then toInt (subLong this.mSize this.offset) else size
  match readLoop this.bufBlock size.toNat (this.offset / blockSize) (this.offset % blockSize) with
  | none => none
  | some buf => some ({ this with offset := this.offset + buf.length }, buf)

/-- The loop of `memfile_append`. -/
def writeLoop : List UInt8 → (blkIdx blkOffset : Nat) → List Mem → Option (List Mem)
  | [], _, _, blocks => some blocks
  | byte :: rest, blkIdx, blkOffset, blocks =>
    match store blocks blkIdx blkOffset byte with
    | none => none
    | some stored =>
      let next := if blkOffset + 1 = blockSize then blkIdx + 1 else blkIdx
      let nextOffset := if blkOffset + 1 = blockSize then 0 else blkOffset + 1
      writeLoop rest next nextOffset stored

def memfileAppend (heap : Heap) (this : Memfile) (buf : List UInt8) (size : Int) :
    Option (Memfile × Int) :=
  if size = 0 then some (this, 0)
  else if size < 0 then some (this, -1)
  else if buf.length < size then none
  else
    let neededBlk := toInt ((this.offset + size.toNat) / blockSize + 1)
    match provide heap this neededBlk with
    | none => none
    | some (grown, false) => some (grown, -1)
    | some (grown, true) =>
      match writeLoop (buf.take size.toNat) (grown.offset / blockSize)
          (grown.offset % blockSize) grown.bufBlock with
      | none => none
      | some blocks =>
        let offset := grown.offset + size.toNat
        some ({ grown with
          bufBlock := blocks
          offset := offset
          mSize := if grown.mSize < offset then offset else grown.mSize }, size)

/-- The loop of `memfile_read2memfile`, from `readLen` bytes on; call `k` of
`memfile_append` uses `heaps k`. -/
def copyLoop (heaps : Nat → Heap) (size : Nat) :
    (fuel k readLen offset : Nat) → Memfile → Memfile → Option (Memfile × Memfile × Int)
  | 0, _, readLen, _, this, mFile => some (this, mFile, readLen)
  | fuel + 1, k, readLen, offset, this, mFile =>
    if readLen < size then
      let sizeToRead := if size - readLen < blockSize then size - readLen else blockSize
      match memfileRead (memfileSetOffset this offset) sizeToRead with
      | none => none
      | some (this, buf) =>
        match memfileAppend (heaps k) mFile buf buf.length with
        | none => none
        | some (mFile, len) =>
          if len < 0 then some (memfileSetOffset this offset, mFile, -1)
          else if len < blockSize then some (this, mFile, readLen + len)
          else copyLoop heaps size fuel (k + 1) (readLen + len.toNat)
            (offset + len.toNat) this mFile
    else some (this, mFile, readLen)

def memfileRead2memfile (heaps : Nat → Heap) (this mFile : Memfile) (size : Nat) :
    Option (Memfile × Memfile × Int) :=
  copyLoop heaps size (size + 1) 0 0 this.offset this mFile

/-! The loops of a memfile on the flat memory its blocks hold, and the blocks that a call
adds. -/

theorem blockSize_pos : 0 < blockSize := by decide

theorem readLoop_flat {blocks : List Mem} {start count : Nat}
    (inside : start + count ≤ blockSize * blocks.length) :
    readLoop blocks count (start / blockSize) (start % blockSize) =
      some ((flat blockSize blocks).read start count) := by
  induction count generalizing start with
  | zero => rfl
  | succ count induction =>
    obtain ⟨block, offset⟩ := next_address blockSize_pos start
    rw [readLoop, load_eq (by omega)]
    simp only [block, offset]
    rw [induction (by omega), Nat.add_comm count 1, Mem.read_add]
    rfl

theorem writeLoop_flat {blocks : List Mem} {start : Nat} {bytes : List UInt8}
    (inside : start + bytes.length ≤ blockSize * blocks.length) :
    ∃ stored, writeLoop bytes (start / blockSize) (start % blockSize) blocks = some stored ∧
      stored.length = blocks.length ∧
      flat blockSize stored = (flat blockSize blocks).write start bytes := by
  induction bytes generalizing start blocks with
  | nil => exact ⟨blocks, rfl, rfl, (Mem.write_nil).symm⟩
  | cons byte rest induction =>
    rw [List.length_cons] at inside
    obtain ⟨block, offset⟩ := next_address blockSize_pos start
    obtain ⟨stored, storing, sameLength, first⟩ := store_eq byte
      (show start < blockSize * blocks.length by omega)
    obtain ⟨final, writing, finalLength, second⟩ := @induction stored (start + 1)
      (by rw [sameLength]; omega)
    refine ⟨final, ?_, finalLength.trans sameLength, ?_⟩
    · rw [writeLoop, storing]
      simp only [block, offset]
      exact writing
    · rw [second, first, ← Mem.write_singleton]
      exact (Mem.write_append _ start [byte] rest).symm

theorem shiftLoop_flat {blocks : List Mem} {size count i : Nat}
    (inside : size + i + count ≤ blockSize * blocks.length) :
    ∃ stored, shiftLoop size count i blocks = some stored ∧ stored.length = blocks.length ∧
      ∀ address, flat blockSize stored address =
        if i ≤ address ∧ address < i + count then flat blockSize blocks (size + address)
        else flat blockSize blocks address := by
  induction count generalizing i blocks with
  | zero =>
    refine ⟨blocks, rfl, rfl, fun address => ?_⟩
    rw [if_neg (by omega)]
  | succ count induction =>
    obtain ⟨stored, storing, sameLength, first⟩ :=
      store_eq (flat blockSize blocks (size + i))
        (show i < blockSize * blocks.length by omega)
    obtain ⟨final, shifting, finalLength, second⟩ := @induction stored (i + 1)
      (by rw [sameLength]; omega)
    refine ⟨final, ?_, finalLength.trans sameLength, fun address => ?_⟩
    · rw [shiftLoop, load_eq (by omega)]
      simp only [storing, shifting]
    · rw [second address, first]
      by_cases here : address = i
      · subst here
        rw [if_neg (by omega), if_pos (by omega), Function.update_self]
      · by_cases later : i + 1 ≤ address ∧ address < i + 1 + count
        · rw [if_pos later, if_pos (by omega), Function.update_of_ne (by omega)]
        · rw [if_neg later, if_neg (by omega), Function.update_of_ne here]

theorem le_raiseMaxBlock (wanted : Int) (fuel maxBlock : Nat)
    (enough : wanted ≤ maxBlock + fuel) :
    wanted ≤ raiseMaxBlock wanted fuel maxBlock ∧
      maxBlock ≤ raiseMaxBlock wanted fuel maxBlock := by
  induction fuel generalizing maxBlock with
  | zero => exact ⟨by simpa [raiseMaxBlock] using enough, Nat.le_refl _⟩
  | succ fuel induction =>
    rw [raiseMaxBlock]
    split
    case isTrue =>
      obtain ⟨reached, more⟩ := induction (maxBlock + numAllocObj) (by
        simp only [numAllocObj]
        omega)
      exact ⟨reached, (Nat.le_add_right _ _).trans more⟩
    case isFalse => exact ⟨by omega, Nat.le_refl _⟩

/-- The heap has no room for a table of pointers or for some block. -/
def Heap.Refuses (heap : Heap) : Prop := heap.calloc = false ∨ ∃ index, heap.malloc index = none

theorem addBlocks_spec (heap : Heap) {tableSize fuel : Nat} {wanted : Int} {blocks : List Mem}
    (table : wanted ≤ tableSize) (enough : wanted ≤ blocks.length + fuel)
    (fits : blocks.length ≤ tableSize) :
    ∃ more done, addBlocks heap tableSize wanted fuel blocks = some (blocks ++ more, done) ∧
      (blocks ++ more).length ≤ tableSize ∧
      (done = true → wanted ≤ (blocks ++ more).length) ∧ (done = false → heap.Refuses) := by
  induction fuel generalizing blocks with
  | zero =>
    exact ⟨[], true, by rw [List.append_nil]; rfl, by rwa [List.append_nil],
      fun _ => by rw [List.append_nil]; omega, by simp⟩
  | succ fuel induction =>
    rw [addBlocks]
    by_cases short : (blocks.length : Int) < wanted
    · rw [if_pos short, if_neg (by omega)]
      cases refused : heap.malloc blocks.length with
      | none =>
        exact ⟨[], false, by rw [List.append_nil], by rwa [List.append_nil], by simp,
          fun _ => .inr ⟨_, refused⟩⟩
      | some block =>
        simp only
        have length : (blocks ++ [block]).length = blocks.length + 1 := by simp
        obtain ⟨more, done, adding, total, reached, refused⟩ :=
          @induction (blocks ++ [block]) (by rw [length]; push_cast; omega)
            (by rw [length]; omega)
        rw [List.append_assoc] at adding total reached
        exact ⟨[block] ++ more, done, adding, total, reached, refused⟩
    · rw [if_neg short]
      exact ⟨[], true, by rw [List.append_nil], by rwa [List.append_nil],
        fun _ => by rw [List.append_nil]; omega, by simp⟩

end Wisebot.Common
