import Wisebot.Lib.Linked

namespace Wisebot.Vbm

/-! Variable buffers: `mod_vbm/mod_vbm.c`. A buffer is a chain of blocks of equal size
that are taken from one free list. A block is given by its index in
`m_blockInfoList`; the bytes in the blocks are left out, and the two allocations of
`VBM_initModule` are taken to succeed. -/

open Wisebot.Lib

structure Config where
  bufBlockSize : Nat
  numBufBlock : Nat

structure VariableBuffer where
  size : Nat
  pFirst : Option Nat
  pLast : Option Nat
  lastBlockUsedBytes : Nat
  deriving DecidableEq

/-- The free list and the `nextInfo` of all blocks. -/
structure Blocks where
  freeBlockRoot : Option Nat
  nextInfo : Nat → Option Nat

/-- Buffers are named by numbers; `none` is one that has not been initialised. -/
structure State where
  blocks : Blocks
  bufs : Nat → Option VariableBuffer

inductive Ret where
  | success
  | fail
  | insufficientBufBlock
  deriving DecidableEq

def pushOneBlock (blocks : Blocks) (block : Nat) : Blocks :=
  ⟨some block, Function.update blocks.nextInfo block blocks.freeBlockRoot⟩

def popOneBlock (blocks : Blocks) : Option (Nat × Blocks) :=
  match blocks.freeBlockRoot with
  | none => none
  | some block =>
    some (block, ⟨blocks.nextInfo block, Function.update blocks.nextInfo block none⟩)

/-- `none` where the list has more than `fuel` blocks. -/
def freeInfoList : (fuel : Nat) → Blocks → Option Nat → Option Blocks
  | _, blocks, none => some blocks
  | 0, _, some _ => none
  | fuel + 1, blocks, some root =>
    freeInfoList fuel (pushOneBlock blocks root) (blocks.nextInfo root)

/-! The functions of the module. A call that does not return, or that reads through a
null pointer or divides by zero, gives `none`. -/

def initModule (config : Config) (blocks : Blocks) : Blocks :=
  match blocks.freeBlockRoot with
  | some _ => blocks
  | none =>
    ⟨some 0, fun block =>
      if block < config.numBufBlock then
        if block ≠ config.numBufBlock - 1 then some (block + 1) else none
      else blocks.nextInfo block⟩

def initBuf (config : Config) (state : State) (id : Nat) : State :=
  ⟨initModule config state.blocks,
    Function.update state.bufs id (some ⟨0, none, none, 0⟩)⟩

/-- `initBufFirstPointer`; `none` where there is no block. -/
def initBufFirstPointer (blocks : Blocks) (buf : VariableBuffer) :
    Option (Blocks × VariableBuffer) :=
  match buf.pFirst with
  | some _ => some (blocks, buf)
  | none =>
    (popOneBlock blocks).map fun popped =>
      (popped.2, { buf with
        pFirst := some popped.1, pLast := some popped.1, lastBlockUsedBytes := 0 })

/-- The loop of `VBM_append`; the flag of the result tells whether all bytes were
copied. -/
def copyBlocks (config : Config) :
    (fuel : Nat) → Blocks → VariableBuffer → (remainSize : Nat) → (oneBlock : Bool) →
      Option (Bool × Blocks × VariableBuffer)
  | 0, _, _, _, _ => none
  | fuel + 1, blocks, buf, remainSize, oneBlock =>
    let copySize := min (config.bufBlockSize - buf.lastBlockUsedBytes) remainSize
    if remainSize - copySize = 0 then
      some (true, blocks, { buf with
        lastBlockUsedBytes := if oneBlock then buf.lastBlockUsedBytes + copySize else copySize })
    else
      match popOneBlock blocks, buf.pLast with
      | none, _ => some (false, blocks, buf)
      | some _, none => none
      | some (block, blocks), some last =>
        copyBlocks config fuel
          { blocks with nextInfo := Function.update blocks.nextInfo last (some block) }
          { buf with pLast := some block, lastBlockUsedBytes := 0 }
          (remainSize - copySize) false

def appendBytes (config : Config) (blocks : Blocks) (buf : VariableBuffer) (size : Nat) :
    Option (Ret × Blocks × VariableBuffer) :=
  match blocks.freeBlockRoot with
  | none => some (.fail, blocks, buf)
  | some _ =>
    match initBufFirstPointer blocks buf with
    | none => some (.insufficientBufBlock, blocks, buf)
    | some (blocks, buf) =>
      match copyBlocks config (size + config.numBufBlock + 2) blocks buf size true with
      | none => none
      | some (true, blocks, copied) =>
        some (.success, blocks, { copied with size := copied.size + size })
      | some (false, blocks, copied) =>
        (freeInfoList (config.numBufBlock + 1) blocks buf.pLast).map fun blocks =>
          (.insufficientBufBlock, blocks, { copied with
            pLast := buf.pLast, lastBlockUsedBytes := buf.lastBlockUsedBytes })

def append (config : Config) (state : State) (id size : Nat) : Option State :=
  (state.bufs id).bind fun buf =>
    (appendBytes config state.blocks buf size).map fun result =>
      ⟨result.2.1, Function.update state.bufs id (some result.2.2)⟩

def freeBuf (config : Config) (state : State) (id : Nat) : Option State :=
  (state.bufs id).bind fun buf =>
    match state.blocks.freeBlockRoot with
    | none => some state
    | some _ =>
      (freeInfoList (config.numBufBlock + 1) state.blocks buf.pFirst).map fun blocks =>
        ⟨blocks, Function.update state.bufs id (some ⟨0, none, none, 0⟩)⟩

/-- Whether `VBM_get` reads all bytes of a buffer. -/
def getAll (buf : VariableBuffer) : Bool := buf.size ≠ 0 && buf.pFirst.isSome

/-- `allocated` tells whether `sb_malloc` has returned a buffer. -/
def appendBuf (config : Config) (state : State) (dest toAppend : Nat) (allocated : Bool) :
    Option State :=
  (state.bufs dest).bind fun _ =>
    (state.bufs toAppend).bind fun source =>
      match state.blocks.freeBlockRoot with
      | none => some state
      | some _ =>
        if allocated = false then some state
        else if config.bufBlockSize = 0 then none
        else if getAll source = false then some state
        else
          (freeBuf config state toAppend).bind fun state => append config state dest source.size

inductive Call where
  | initBuf (id : Nat)
  | append (id size : Nat)
  | appendBuf (dest toAppend : Nat) (allocated : Bool)
  | freeBuf (id : Nat)

def step (config : Config) (state : State) : Call → Option State
  | .initBuf id => some (initBuf config state id)
  | .append id size => append config state id size
  | .appendBuf dest toAppend allocated => appendBuf config state dest toAppend allocated
  | .freeBuf id => freeBuf config state id

/-- The state that `VBM_initModule` makes. -/
def started (config : Config) : State :=
  ⟨initModule config ⟨none, fun _ => none⟩, fun _ => none⟩

end Wisebot.Vbm
