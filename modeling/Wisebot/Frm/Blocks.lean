import Mathlib.Data.Int.Order.Basic
import Wisebot.Lib.Mem
import Wisebot.Lib.Transition

namespace Wisebot.Frm

open Wisebot.Lib

/-! Records of one size in a file that processes map block by block: `mod_frm.c`. A
`none` result is an access outside of a mapped block or of the table of blocks. -/

def maxBlockNum : Nat := 128

/-- `MAX_BLOCK_SIZE`, which `frm_open` gives every file. -/
def blockSize : Nat := 1048576

/-- `sizeof(header_t)` -/
def headerSize : Nat := 12

/-- The pages that hold the header. -/
def headerBlockSize (pageSize : Nat) : Nat := (headerSize + pageSize - 1) / pageSize * pageSize

/-- The file: the count in its header, which all processes map, and its bytes. -/
structure Shared where
  allocatedBlocks : Int
  file : Mem

/-- A `mmap_file_t`: the blocks that one process has mapped. -/
structure Process where
  allocatedBlocks : Int
  block : Nat → Option Nat

structure Handle where
  shared : Shared
  process : Process

def Handle.writeFile (handle : Handle) (address : Nat) (bytes : List UInt8) : Handle :=
  { handle with shared.file := handle.shared.file.write address bytes }

@[simp] theorem Handle.writeFile_allocatedBlocks (handle : Handle) (address : Nat)
    (bytes : List UInt8) :
    (handle.writeFile address bytes).shared.allocatedBlocks = handle.shared.allocatedBlocks := rfl

@[simp] theorem Handle.writeFile_process (handle : Handle) (address : Nat)
    (bytes : List UInt8) : (handle.writeFile address bytes).process = handle.process := rfl

structure System where
  lengthens : Bool
  maps : Nat → Bool

/-- Where a block begins in the file. -/
def blockStart (headerBlock : Nat) (index : Nat) : Nat := headerBlock + index * blockSize

section Functions

variable (headerBlock : Nat) (system : System)

def extendFile (handle : Handle) : Bool × Handle :=
  if system.lengthens then
    (true, handle.writeFile
      (blockStart headerBlock (handle.shared.allocatedBlocks + 1).toNat) [0])
  else (false, handle)

/-- The loop of `extend_mmap`, which runs as often as the counts differ. -/
def mapBlocks : (rounds : Nat) → Handle → Option (Bool × Handle)
  | 0, handle => some (true, handle)
  | rounds + 1, handle =>
    let index := (handle.process.allocatedBlocks + 1).toNat
    let counted : Handle :=
      { handle with process.allocatedBlocks := handle.process.allocatedBlocks + 1 }
    if system.maps index then
      if index < maxBlockNum then
        mapBlocks rounds
          { counted with process.block :=
              Function.update handle.process.block index (some (blockStart headerBlock index)) }
      else none
    else some (false, counted)

def extendMmap (handle : Handle) : Option (Bool × Handle) :=
  mapBlocks headerBlock system
    (handle.shared.allocatedBlocks - handle.process.allocatedBlocks).toNat handle

/-- The end of `allocate`. -/
def mapMissing (handle : Handle) : Option (Bool × Handle) :=
  if handle.process.allocatedBlocks < handle.shared.allocatedBlocks then
    if (extendFile headerBlock system handle).1 then
      extendMmap headerBlock system (extendFile headerBlock system handle).2
    else some (false, (extendFile headerBlock system handle).2)
  else some (true, handle)

def allocate (moreExtend : Bool) (handle : Handle) : Option (Bool × Handle) :=
  if moreExtend then
    if (maxBlockNum : Int) ≤ handle.shared.allocatedBlocks then some (false, handle)
    else
      mapMissing headerBlock system
        { handle with shared.allocatedBlocks := handle.shared.allocatedBlocks + 1 }
  else mapMissing headerBlock system handle

/-- The loop of `get_save_data_position`; a round counts one block more. -/
def reachBlock (currBlock : Nat) : (rounds : Nat) → Handle → Option (Bool × Handle)
  | 0, handle => some (true, handle)
  | rounds + 1, handle =>
    if handle.shared.allocatedBlocks < currBlock then
      (allocate headerBlock system true handle).bind fun answered =>
        if answered.1 then reachBlock currBlock rounds answered.2 else some (false, answered.2)
    else some (true, handle)

def extendCheck (handle : Handle) : Option (Bool × Handle) :=
  if handle.process.allocatedBlocks < handle.shared.allocatedBlocks ∨
      handle.process.allocatedBlocks = -1 then
    allocate headerBlock system false handle
  else some (true, handle)

/-- `key*fixed_data_size / block_size` -/
def currBlock (size key : Nat) : Nat := key * size / blockSize

/-- `key*fixed_data_size % block_size` -/
def offset (size key : Nat) : Nat := key * size % blockSize

/-- The address of a record of the table of blocks, if all its bytes are in the block. -/
def recordAddress (size key : Nat) (process : Process) : Option Nat :=
  if currBlock size key < maxBlockNum then
    (process.block (currBlock size key)).bind fun start =>
      if offset size key + size ≤ blockSize then some (start + offset size key) else none
  else none

/-- `SUCCESS` or `FAIL`; the data has `fixed_data_size` bytes. -/
def frmAdd (size key : Nat) (data : List UInt8) (handle : Handle) : Option (Bool × Handle) :=
  if blockSize < size then some (false, handle)
  else
    (extendCheck headerBlock system handle).bind fun checked =>
      if checked.1 then
        (reachBlock headerBlock system (currBlock size key)
          (currBlock size key - checked.2.shared.allocatedBlocks).toNat checked.2).bind
          fun reached =>
            if reached.1 then
              (recordAddress size key reached.2.process).map fun address =>
                (true, reached.2.writeFile address data)
            else some (false, reached.2)
      else some (false, checked.2)

/-- The bytes that the caller finds at the pointer, or `FAIL`. -/
def frmRead (size key : Nat) (handle : Handle) : Option (Option (List UInt8) × Handle) :=
  (extendCheck headerBlock system handle).bind fun checked =>
    if checked.1 then
      if checked.2.process.allocatedBlocks < currBlock size key then some (none, checked.2)
      else
        (recordAddress size key checked.2.process).map fun address =>
          (some (checked.2.shared.file.read address size), checked.2)
    else some (none, checked.2)

def newProcess : Process := ⟨-1, fun _ => none⟩

/-- The answer of `frm_open` and the file; without a process where it fails. -/
def frmOpen (size : Nat) (shared : Shared) : Option (Option Process × Shared) :=
  if size = 0 ∨ size % 2 ≠ 0 then some (none, shared)
  else
    let extended := extendFile headerBlock system ⟨shared, newProcess⟩
    if extended.1 then
      (extendMmap headerBlock system extended.2).map fun mapped =>
        (if mapped.1 then some mapped.2.process else none, mapped.2.shared)
    else some (none, extended.2.shared)

end Functions

/-- The file, the processes that have opened it, and what was last added by key. -/
structure State where
  shared : Shared
  processes : Nat → Option Process
  added : Nat → Option (List UInt8)

def newFile : State := ⟨⟨0, fun _ => 0⟩, fun _ => none, fun _ => none⟩

abbrev Record (size : Nat) := { data : List UInt8 // data.length = size }

inductive Event (size : Nat)
  | start (system : System) (process : Nat)
  | add (system : System) (process key : Nat) (data : Record size)
  | read (system : System) (process key : Nat)

/-- A process that has opened the file goes on with its handle. -/
def State.handle (state : State) (process : Nat) : Option Handle :=
  (state.processes process).map fun blocks => ⟨state.shared, blocks⟩

def State.put (state : State) (process : Nat) (handle : Handle) : State :=
  { state with
    shared := handle.shared
    processes := Function.update state.processes process (some handle.process) }

/-- One call; a process that has not opened the file calls nothing. -/
def step (headerBlock size : Nat) (state : State) : Event size → Option State
  | .start system process =>
    (frmOpen headerBlock system size state.shared).map fun opened =>
      { state with
        shared := opened.2
        processes := Function.update state.processes process opened.1 }
  | .add system process key data =>
    match state.handle process with
    | none => some state
    | some handle =>
      (frmAdd headerBlock system size key data handle).map fun answered =>
        if answered.1 then
          { state.put process answered.2 with
            added := Function.update state.added key (some data) }
        else state.put process answered.2
  | .read system process key =>
    match state.handle process with
    | none => some state
    | some handle =>
      (frmRead headerBlock system size key handle).map fun answered =>
        state.put process answered.2

end Wisebot.Frm
