import Wisebot.Lib.Mem
import Wisebot.Lib.Transition
import Wisebot.Lib.Word

namespace Wisebot.Vrm

open Lib

/-! `mod_vrm`: records by key in an index file and a data file that grow by blocks.
The header and the blocks of a file are shared; each process has its own count of
mapped blocks. A `none` result is an access outside of the mapped blocks or of the
array of blocks. System calls do not fail. -/

def maxBlockSizeBit : Nat := 23

def maxBlockSize : Nat := 2 ^ maxBlockSizeBit

def maxBlockNum : Nat := 2 ^ (31 - maxBlockSizeBit) - 2

def blockInfo (blockNum offset : Nat) : Nat :=
  blockNum % 2 ^ (32 - maxBlockSizeBit) +
    2 ^ (32 - maxBlockSizeBit) * (offset % 2 ^ maxBlockSizeBit)

def blockInfoBlockNum (word : Nat) : Nat := word % 2 ^ (32 - maxBlockSizeBit)

def blockInfoOffset (word : Nat) : Nat := word / 2 ^ (32 - maxBlockSizeBit)

/-- A file: `allocatedBlocks` is the number of the last block. -/
structure Image where
  nextPosition : Nat
  allocatedBlocks : Nat
  blocks : Nat → Mem

/-- A file as a process has it, with the last block that it has mapped. -/
structure MmapFile where
  image : Image
  allocatedBlocks : Int

structure VrmT where
  index : MmapFile
  data : MmapFile

/-- The byte that makes the file longer is the first one behind the last block. -/
def extendFile (image : Image) : Image :=
  { image with
    blocks := Function.update image.blocks (image.allocatedBlocks + 1)
      ((image.blocks (image.allocatedBlocks + 1)).write 0 [0]) }

/-- The loop maps up to the last block, which has to have a place in the array. -/
def extendMmap (file : MmapFile) : Option MmapFile :=
  if file.allocatedBlocks < file.image.allocatedBlocks then
    if maxBlockNum ≤ file.image.allocatedBlocks then none
    else some { file with allocatedBlocks := file.image.allocatedBlocks }
  else some file

def fileOpen (image : Image) : Option MmapFile := extendMmap ⟨extendFile image, -1⟩

def nextBlock (image : Image) : Image :=
  { image with nextPosition := 0, allocatedBlocks := image.allocatedBlocks + 1 }

def allocate (file : MmapFile) (moreExtend : Bool) : Option (Bool × MmapFile) :=
  if moreExtend ∧ maxBlockNum ≤ file.image.allocatedBlocks then some (false, file)
  else
    let file := if moreExtend then { file with image := nextBlock file.image } else file
    if file.allocatedBlocks < file.image.allocatedBlocks then
      (extendMmap { file with image := extendFile file.image }).map fun file => (true, file)
    else some (true, file)

def extendCheck (file : MmapFile) : Option (Bool × MmapFile) :=
  if file.allocatedBlocks < file.image.allocatedBlocks ∨ file.allocatedBlocks = -1 then
    allocate file false
  else some (true, file)

def indexBlock (key : Nat) : Nat := key * 4 / maxBlockSize

def indexOffset (key : Nat) : Nat := key * 4 % maxBlockSize

/-- The loop of `get_save_index_position`; `false` is its null pointer. -/
def growIndex : (fuel currBlock : Nat) → MmapFile → Option (Bool × MmapFile)
  | 0, _, _ => none
  | fuel + 1, currBlock, file =>
    if file.image.allocatedBlocks < currBlock then
      match allocate file true with
      | none => none
      | some (false, file) => some (false, file)
      | some (true, file) => growIndex fuel currBlock file
    else some (true, file)

/-- The new block when the record does not fit in the last one; the comparison is one
of unsigned numbers. -/
def makeRoom (data : MmapFile) (size : Nat) : Option (Bool × MmapFile) :=
  if data.image.nextPosition ≤ maxBlockSize ∧
      maxBlockSize - data.image.nextPosition < size + 4 then
    allocate data true
  else some (true, data)

def saveData (file : MmapFile) (bytes : List UInt8) : Option MmapFile :=
  let block := file.image.allocatedBlocks
  let position := file.image.nextPosition
  if file.allocatedBlocks < block ∨ maxBlockSize < position + 4 + bytes.length then none
  else
    some { file with image := { file.image with
      nextPosition := position + (4 + bytes.length)
      blocks := Function.update file.image.blocks block
        ((file.image.blocks block).write position (encodeWord 4 bytes.length ++ bytes)) } }

/-- The entry of the key, written through the pointer that the loop gives. -/
def saveIndex (file : MmapFile) (key word : Nat) : Option MmapFile :=
  match growIndex (indexBlock key + 1) (indexBlock key) file with
  | none => none
  | some (false, _) => none
  | some (true, file) =>
    if file.allocatedBlocks < indexBlock key then none
    else
      some { file with image := { file.image with
        nextPosition := file.image.nextPosition + 4
        blocks := Function.update file.image.blocks (indexBlock key)
          ((file.image.blocks (indexBlock key)).write (indexOffset key)
            (encodeWord 4 word)) } }

def vrmAdd (vrm : VrmT) (key : Nat) (bytes : List UInt8) : Option (Bool × VrmT) :=
  if maxBlockSize < bytes.length then some (false, vrm)
  else
    (extendCheck vrm.index).bind fun (checked, index) =>
      if checked = false then some (false, ⟨index, vrm.data⟩)
      else
        (extendCheck vrm.data).bind fun (checked, data) =>
          if checked = false then some (false, ⟨index, data⟩)
          else
            (makeRoom data bytes.length).bind fun (room, data) =>
              if room = false then some (false, ⟨index, data⟩)
              else
                let word := blockInfo data.image.allocatedBlocks data.image.nextPosition
                (saveData data bytes).bind fun data =>
                  (saveIndex index key word).map fun index => (true, ⟨index, data⟩)

/-- The place of the record of the key; an entry of zeros is one that is not there. -/
def getData (vrm : VrmT) (key : Nat) : Option (Nat × Nat) :=
  if vrm.index.allocatedBlocks < indexBlock key then none
  else
    let word := decodeWord ((vrm.index.image.blocks (indexBlock key)).read (indexOffset key) 4)
    if blockInfoBlockNum word = 0 ∧ blockInfoOffset word = 0 then none
    else some (blockInfoBlockNum word, blockInfoOffset word)

/-- The record, or `FAIL`. -/
def vrmRead (vrm : VrmT) (key : Nat) : Option (Option (List UInt8) × VrmT) :=
  (extendCheck vrm.index).bind fun (checked, index) =>
    if checked = false then some (none, ⟨index, vrm.data⟩)
    else
      (extendCheck vrm.data).bind fun (checked, data) =>
        if checked = false then some (none, ⟨index, data⟩)
        else
          match getData ⟨index, data⟩ key with
          | none => some (none, ⟨index, data⟩)
          | some (block, offset) =>
            if data.allocatedBlocks < block then none
            else
              let size := decodeWord ((data.image.blocks block).read offset 4)
              some (some ((data.image.blocks block).read (offset + 4) size), ⟨index, data⟩)

/-- The files, the counts of mapped blocks of the processes that have opened them, and
the records that were added, the last one first. -/
structure Store where
  index : Image
  data : Image
  processes : Nat → Option (Int × Int)
  adds : List (Nat × List UInt8)

inductive Event where
  | vrmOpen (process : Nat)
  | vrmClose (process : Nat)
  | vrmAdd (process key : Nat) (bytes : List UInt8)
  | vrmRead (process key : Nat)

def Store.handle (store : Store) (process : Nat) : Option VrmT :=
  (store.processes process).map fun mapped =>
    ⟨⟨store.index, mapped.1⟩, ⟨store.data, mapped.2⟩⟩

def Store.leave (store : Store) (process : Nat) (vrm : VrmT) : Store :=
  { store with
    index := vrm.index.image
    data := vrm.data.image
    processes := Function.update store.processes process
      (some (vrm.index.allocatedBlocks, vrm.data.allocatedBlocks)) }

/-- One call under the lock; a `vrm_add` is one that returns `SUCCESS`. -/
def step (store : Store) : Event → Option Store
  | .vrmOpen process =>
    (fileOpen store.index).bind fun index =>
      (fileOpen store.data).map fun data => store.leave process ⟨index, data⟩
  | .vrmClose process =>
    (store.handle process).map fun _ =>
      { store with processes := Function.update store.processes process none }
  | .vrmAdd process key bytes =>
    (store.handle process).bind fun vrm =>
      (vrmAdd vrm key bytes).bind fun (added, vrm) =>
        if added then
          some { store.leave process vrm with adds := (key, bytes) :: store.adds }
        else none
  | .vrmRead process key =>
    (store.handle process).bind fun vrm =>
      (vrmRead vrm key).map fun result => store.leave process result.2

def created : Image := ⟨0, 0, fun _ _ => 0⟩

def start : Store := ⟨created, created, fun _ => none, []⟩

def latest : List (Nat × List UInt8) → Nat → Option (List UInt8)
  | [], _ => none
  | (key, bytes) :: older, wanted => if key = wanted then some bytes else latest older wanted

def LatestIsFirst : List (Nat × List UInt8) → Nat → Prop
  | [], _ => False
  | (key, _) :: older, wanted => if key = wanted then older = [] else LatestIsFirst older wanted

def dataBlock (image : Image) (size : Nat) : Nat :=
  if maxBlockSize - image.nextPosition < size + 4 then image.allocatedBlocks + 1
  else image.allocatedBlocks

/-- A record has a place in a block with its size in front, and the blocks that it needs
have a place in the arrays of blocks. -/
def Inside (store : Store) : Event → Prop
  | .vrmAdd _ key bytes =>
    bytes.length + 4 ≤ maxBlockSize ∧ indexBlock key < maxBlockNum ∧
      dataBlock store.data bytes.length < maxBlockNum
  | _ => True

end Wisebot.Vrm
