import Wisebot.Lib.Mem
import Wisebot.Vbm.Ownership

namespace Wisebot.Vbm

open Wisebot.Lib

/-! The bytes in the blocks: `VBM_append` and `VBM_get`. A block is a memory of its
own, since no copy goes beyond the end of a block. -/

structure Heap where
  state : State
  bytes : Nat → Mem

/-- The loop of `VBM_append` with the bytes that it copies. -/
def copyBytes (config : Config) :
    (fuel : Nat) → Blocks → (Nat → Mem) → VariableBuffer → List UInt8 → (oneBlock : Bool) →
      Option (Bool × Blocks × (Nat → Mem) × VariableBuffer)
  | 0, _, _, _, _, _ => none
  | fuel + 1, blocks, bytes, buf, source, oneBlock =>
    match buf.pLast with
    | none => none
    | some last =>
      let copySize := min (config.bufBlockSize - buf.lastBlockUsedBytes) source.length
      let bytes := Function.update bytes last
        ((bytes last).write buf.lastBlockUsedBytes (source.take copySize))
      if source.length - copySize = 0 then
        some (true, blocks, bytes, { buf with
          lastBlockUsedBytes :=
            if oneBlock then buf.lastBlockUsedBytes + copySize else copySize })
      else
        match popOneBlock blocks with
        | none => some (false, blocks, bytes, buf)
        | some (block, blocks) =>
          copyBytes config fuel
            { blocks with nextInfo := Function.update blocks.nextInfo last (some block) }
            bytes { buf with pLast := some block, lastBlockUsedBytes := 0 }
            (source.drop copySize) false

def appendData (config : Config) (blocks : Blocks) (bytes : Nat → Mem) (buf : VariableBuffer)
    (source : List UInt8) : Option (Ret × Blocks × (Nat → Mem) × VariableBuffer) :=
  match blocks.freeBlockRoot with
  | none => some (.fail, blocks, bytes, buf)
  | some _ =>
    match initBufFirstPointer blocks buf with
    | none => some (.insufficientBufBlock, blocks, bytes, buf)
    | some (blocks, buf) =>
      match copyBytes config (source.length + config.numBufBlock + 2) blocks bytes buf source
          true with
      | none => none
      | some (true, blocks, bytes, copied) =>
        some (.success, blocks, bytes, { copied with size := copied.size + source.length })
      | some (false, blocks, bytes, copied) =>
        (freeInfoList (config.numBufBlock + 1) blocks buf.pLast).map fun blocks =>
          (.insufficientBufBlock, blocks, bytes, { copied with
            pLast := buf.pLast, lastBlockUsedBytes := buf.lastBlockUsedBytes })

def appendTo (config : Config) (heap : Heap) (id : Nat) (source : List UInt8) :
    Option (Ret × Heap) :=
  (heap.state.bufs id).bind fun buf =>
    (appendData config heap.state.blocks heap.bytes buf source).map fun result =>
      (result.1, ⟨⟨result.2.1, Function.update heap.state.bufs id (some result.2.2.2)⟩,
        result.2.2.1⟩)

/-- The walk to the block of the offset; it reads through a null pointer where the
chain is too short. -/
def skipBlocks (next : Nat → Option Nat) : (count : Nat) → Option Nat → Option (Option Nat)
  | 0, block => some block
  | _ + 1, none => none
  | count + 1, some block => skipBlocks next count (next block)

/-- The loop of `VBM_get`: the bytes that it copies. -/
def getBlocks (config : Config) (heap : Heap) :
    (fuel block blockOffset remainSize : Nat) → Option (List UInt8)
  | 0, _, _, _ => none
  | fuel + 1, block, blockOffset, remainSize =>
    let copySize := min (config.bufBlockSize - blockOffset) remainSize
    let copied := (heap.bytes block).read blockOffset copySize
    if remainSize - copySize = 0 then some copied
    else
      match heap.state.blocks.nextInfo block with
      | none => some copied
      | some next =>
        (getBlocks config heap fuel next 0 (remainSize - copySize)).map (copied ++ ·)

/-- `VBM_get` with the bytes that it delivers; their number is what it returns. -/
def get (config : Config) (heap : Heap) (id offset size : Nat) :
    Option (Except Ret (List UInt8)) :=
  (heap.state.bufs id).bind fun buf =>
    match heap.state.blocks.freeBlockRoot with
    | none => some (.error .fail)
    | some _ =>
      if config.bufBlockSize = 0 then none
      else if buf.size < size + offset then some (.error .fail)
      else if size = 0 then some (.error .fail)
      else
        match skipBlocks heap.state.blocks.nextInfo (offset / config.bufBlockSize)
            buf.pFirst with
        | none => none
        | some none => some (.error .fail)
        | some (some block) =>
          (getBlocks config heap size block (offset % config.bufBlockSize) size).map .ok

/-- The bytes of the source go through a buffer of its size, which has to be filled. -/
def appendBufTo (config : Config) (heap : Heap) (dest toAppend : Nat) (allocated : Bool) :
    Option (Ret × Heap) :=
  (heap.state.bufs dest).bind fun _ =>
    (heap.state.bufs toAppend).bind fun source =>
      match heap.state.blocks.freeBlockRoot with
      | none => some (.fail, heap)
      | some _ =>
        if allocated = false then some (.fail, heap)
        else
          match get config heap toAppend 0 source.size with
          | none => none
          | some (.error _) => some (.fail, heap)
          | some (.ok copied) =>
            if copied.length < source.size then none
            else
              (freeBuf config heap.state toAppend).bind fun state =>
                (appendTo config { heap with state := state } dest copied).map fun result =>
                  (if result.1 = .success then .success else .fail, result.2)

inductive Operation where
  | initBuf (id : Nat)
  | append (id : Nat) (source : List UInt8)
  | appendBuf (dest toAppend : Nat) (allocated : Bool)
  | freeBuf (id : Nat)

def Operation.call : Operation → Call
  | .initBuf id => .initBuf id
  | .append id source => .append id source.length
  | .appendBuf dest toAppend allocated => .appendBuf dest toAppend allocated
  | .freeBuf id => .freeBuf id

/-- `VBM_freeBuf` returns nothing; its code tells whether the module was usable. -/
def perform (config : Config) (heap : Heap) : Operation → Option (Ret × Heap)
  | .initBuf id => some (.success, { heap with state := initBuf config heap.state id })
  | .append id source => appendTo config heap id source
  | .appendBuf dest toAppend allocated => appendBufTo config heap dest toAppend allocated
  | .freeBuf id =>
    (freeBuf config heap.state id).map fun state =>
      (if heap.state.blocks.freeBlockRoot = none then .fail else .success,
        { heap with state := state })

def performAll (config : Config) : Heap → List Operation → Option (List Ret × Heap)
  | heap, [] => some ([], heap)
  | heap, operation :: operations =>
    (perform config heap operation).bind fun result =>
      (performAll config result.2 operations).map fun rest => (result.1 :: rest.1, rest.2)

/-- What a call that returned a code does to the contents of the buffers. -/
def track (contents : Nat → List UInt8) : Operation → Ret → Nat → List UInt8
  | .initBuf id, _ => Function.update contents id []
  | .append id source, .success => Function.update contents id (contents id ++ source)
  | .appendBuf dest toAppend _, .success =>
    Function.update (Function.update contents toAppend []) dest
      ((if dest = toAppend then [] else contents dest) ++ contents toAppend)
  | .freeBuf id, .success => Function.update contents id []
  | _, _ => contents

def contentsOf (contents : Nat → List UInt8) : List Operation → List Ret → Nat → List UInt8
  | operation :: operations, ret :: rets =>
    contentsOf (track contents operation ret) operations rets
  | _, _ => contents

/-- Every call of a run keeps away from the end of the free list. -/
def RoomyRun (config : Config) : Heap → List Operation → Prop
  | _, [] => True
  | heap, operation :: operations =>
    Roomy config heap.state operation.call ∧
      ∀ ret next, perform config heap operation = some (ret, next) →
        RoomyRun config next operations

/-- All blocks of a chain but the last one are full. -/
def chainBytes (config : Config) (bytes : Nat → Mem) (used : Nat) : List Nat → List UInt8
  | [] => []
  | [last] => (bytes last).read 0 used
  | block :: next :: rest =>
    (bytes block).read 0 config.bufBlockSize ++ chainBytes config bytes used (next :: rest)

section

variable {config : Config} {bytes bytes' : Nat → Mem} {used : Nat}

theorem chainBytes_concat (front : List Nat) (last : Nat) :
    chainBytes config bytes used (front ++ [last]) =
      (front.flatMap fun block => (bytes block).read 0 config.bufBlockSize) ++
        (bytes last).read 0 used := by
  induction front with
  | nil => rfl
  | cons block front induction =>
    obtain ⟨next, rest, split⟩ := List.exists_cons_of_ne_nil
      (show front ++ [last] ≠ [] by simp)
    rw [List.cons_append, split, chainBytes, ← split, induction, List.flatMap_cons,
      List.append_assoc]

theorem chainBytes_congr {chain : List Nat} (same : ∀ block ∈ chain, bytes' block = bytes block) :
    chainBytes config bytes' used chain = chainBytes config bytes used chain := by
  induction chain with
  | nil => rfl
  | cons block rest induction =>
    cases rest with
    | nil => rw [chainBytes, chainBytes, same block (by simp)]
    | cons next rest =>
      rw [chainBytes, chainBytes, same block (by simp),
        induction fun other member => same other (List.mem_cons_of_mem _ member)]

theorem chainBytes_write {front : List Nat} {last : Nat} (fresh : last ∉ front)
    (source : List UInt8) :
    chainBytes config (Function.update bytes last ((bytes last).write used source))
      (used + source.length) (front ++ [last]) =
        chainBytes config bytes used (front ++ [last]) ++ source := by
  have others : (front.flatMap fun block => (Function.update bytes last
      ((bytes last).write used source) block).read 0 config.bufBlockSize) =
      front.flatMap fun block => (bytes block).read 0 config.bufBlockSize := by
    refine List.flatMap_congr fun block member => ?_
    rw [Function.update_of_ne (show block ≠ last from fun same => fresh (same ▸ member))]
  rw [chainBytes_concat, chainBytes_concat, others, Function.update_self, Mem.read_add,
    Mem.read_write_disjoint (.inl (by omega)), Nat.zero_add, Mem.read_write, List.append_assoc]

theorem chainBytes_extend (chain : List Nat) (last block : Nat) :
    chainBytes config bytes 0 (chain ++ [last] ++ [block]) =
      chainBytes config bytes config.bufBlockSize (chain ++ [last]) := by
  rw [chainBytes_concat, chainBytes_concat, List.flatMap_append]
  simp

end

end Wisebot.Vbm
