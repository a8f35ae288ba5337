import Mathlib.Algebra.Ring.Nat
import Wisebot.Lib.Mem
import Wisebot.Lib.Word

namespace Wisebot.Sfs

open Wisebot.Lib

/-! The segment file system (`modules/mod_sfs`): the on-disk types of
`sfs_types.h`, the layout that `sfs_format` computes and block I/O. A segment
is a super block and the bytes behind it; the bytes of the super block itself
are not part of the memory. An access that would touch them or leave the
segment has no defined result (`none`). -/

inductive Ret where
  | success
  | fail
  | fileNotExists
  | segmentFull
  deriving DecidableEq, Repr

/-- The two error codes that reach a caller of the file functions. -/
inductive Failure where
  | fail
  | fileNotExists
  deriving DecidableEq, Repr

inductive OpenType where
  | unload
  | mmap
  | file
  deriving DecidableEq, Repr

def sfsMagic : List UInt8 := [83, 70, 83, 48]

def oFat : UInt32 := 1

def oHashRootDir : UInt32 := 4

def maxBlockSize : Int := 4096

def superBlockCount : Nat := 2

def numMaxBit : Nat := 30

def countMaxBit : Nat := 30

def sizeofSuperBlock : Nat := 72

def sizeofFatEntry : Nat := 8

def sizeofDirEntry : Nat := 16

structure SuperBlock where
  magic : List UInt8
  startFatBlock : Int
  endFatBlock : Int
  startFileBlock : Int
  endFileBlock : Int
  startDirBlock : Int
  endDirBlock : Int
  minFileId : Int
  maxFileId : Int
  fileCount : Int
  fileTotalByte : Int
  option : UInt32
  size : Int
  blockCount : Int
  blockSize : Int
  entryCountInBlock : Int
  dirBlockCount : Int
  freeBlockNum : Int

namespace SuperBlock

/-- `option & O_FAT`. -/
def hasFat (superBlock : SuperBlock) : Bool := superBlock.option &&& oFat != 0

end SuperBlock

structure FatEntry where
  count : Nat
  num : Nat
  deriving DecidableEq, Repr

structure DirEntry where
  id : Nat
  size : Nat
  firstBlockNum : Nat
  lastBlockNum : Nat
  deriving DecidableEq, Repr

def FatEntry.encode (entry : FatEntry) : List UInt8 :=
  encodeWord 4 entry.count ++ encodeWord 4 entry.num

def FatEntry.decode (bytes : List UInt8) : FatEntry where
  count := decodeWord (bytes.take 4)
  num := decodeWord ((bytes.drop 4).take 4)

def DirEntry.encode (entry : DirEntry) : List UInt8 :=
  encodeWord 4 entry.id ++ (encodeWord 4 entry.size ++
    (encodeWord 4 entry.firstBlockNum ++ encodeWord 4 entry.lastBlockNum))

def DirEntry.decode (bytes : List UInt8) : DirEntry where
  id := decodeWord (bytes.take 4)
  size := decodeWord ((bytes.drop 4).take 4)
  firstBlockNum := decodeWord ((bytes.drop 8).take 4)
  lastBlockNum := decodeWord ((bytes.drop 12).take 4)

/-! `super_block.c`. -/

def superblockAddFileCount (superBlock : SuperBlock) (fileId : Nat) : SuperBlock :=
  { superBlock with
    minFileId :=
      if superBlock.minFileId = 0 ∨ superBlock.minFileId > fileId then fileId
      else superBlock.minFileId
    maxFileId :=
      if superBlock.maxFileId = 0 ∨ superBlock.maxFileId < fileId then fileId
      else superBlock.maxFileId
    fileCount := superBlock.fileCount + 1 }

def superblockUpdateWriteByte (superBlock : SuperBlock) (writeByte : Int) :
    SuperBlock :=
  { superBlock with fileTotalByte := superBlock.fileTotalByte + writeByte }

/-! The layout computed by `sfs_format`. Divisions are those of C: they
truncate towards zero. -/

def fatInitSuperblock (superBlock : SuperBlock) : SuperBlock :=
  let fatSize := superBlock.blockCount * sizeofFatEntry
  if superBlock.hasFat then
    let endFat := superBlockCount + fatSize.tdiv superBlock.blockSize
    let endFat :=
      if fatSize.tmod superBlock.blockSize = 0 then endFat - 1 else endFat
    { superBlock with
      startFatBlock := superBlockCount
      endFatBlock := endFat
      freeBlockNum := endFat + 1 }
  else
    { superBlock with
      startFatBlock := -1
      endFatBlock := -1
      freeBlockNum := superBlockCount }

def dirInitSuperblock (superBlock : SuperBlock) : SuperBlock :=
  let blockSize := superBlock.blockSize
  let blockCount := superBlock.blockCount
  let dirSize := sizeofDirEntry * (blockCount - superBlock.freeBlockNum)
  let dirBlockCount :=
    if dirSize.tmod blockSize = 0 then dirSize.tdiv blockSize
    else dirSize.tdiv blockSize + 1
  { superBlock with
    startDirBlock := blockCount - dirBlockCount
    endDirBlock := blockCount - 1
    entryCountInBlock := blockSize.tdiv sizeofDirEntry
    dirBlockCount := dirBlockCount }

/-- The super block as `sfs_format` sets it up before the layout. -/
def blankSuperBlock (option : UInt32) (size blockSize : Int) : SuperBlock where
  magic := sfsMagic
  startFatBlock := 0
  endFatBlock := 0
  startFileBlock := 0
  endFileBlock := 0
  startDirBlock := 0
  endDirBlock := 0
  minFileId := 0
  maxFileId := 0
  fileCount := 0
  fileTotalByte := 0
  option := option
  size := size
  blockCount := size.tdiv blockSize
  blockSize := blockSize
  entryCountInBlock := 0
  dirBlockCount := 0
  freeBlockNum := 0

def formattedSuperBlock (option : UInt32) (size blockSize : Int) : SuperBlock :=
  let superBlock :=
    dirInitSuperblock (fatInitSuperblock (blankSuperBlock option size blockSize))
  { superBlock with
    startFileBlock := superBlock.freeBlockNum
    endFileBlock := superBlock.startDirBlock - 1 }

/-- How many bytes `read(2)` and `write(2)` transfer for an offset and a size. -/
structure Io where
  read : Nat → Nat → Nat
  write : Nat → Nat → Nat

/-- Every transfer is complete. -/
structure Io.Reliable (io : Io) : Prop where
  read : ∀ offset size, io.read offset size = size
  write : ∀ offset size, io.write offset size = size

structure Segment where
  type : OpenType
  io : Io
  superBlock : SuperBlock
  mem : Mem

namespace Segment

def Within (sfs : Segment) (offset : Int) (size : Nat) : Prop :=
  (sizeofSuperBlock : Int) ≤ offset ∧ offset + size ≤ sfs.superBlock.size

instance (sfs : Segment) (offset : Int) (size : Nat) :
    Decidable (sfs.Within offset size) :=
  inferInstanceAs (Decidable (_ ∧ _))

end Segment

def sfsBlockRead (sfs : Segment) (offset : Int) (size : Nat) :
    Option (Except Failure (List UInt8)) :=
  if sfs.Within offset size then
    if sfs.type = .mmap ∨ sfs.io.read offset.toNat size = size then
      some (.ok (sfs.mem.read offset.toNat size))
    else some (.error .fail)
  else none

def sfsBlockWrite (sfs : Segment) (offset : Int) (buf : List UInt8) :
    Option (Ret × Segment) :=
  if sfs.Within offset buf.length then
    if sfs.type = .mmap then
      some (.success, { sfs with mem := sfs.mem.write offset.toNat buf })
    else
      let bytes := sfs.io.write offset.toNat buf.length
      let written := { sfs with mem := sfs.mem.write offset.toNat (buf.take bytes) }
      some (if bytes = buf.length then .success else .fail, written)
  else none

/-! `sfs_format`, `sfs_open`, `sfs_close`. -/

/-- A loaded handle maps the super block, only an unloaded one writes it. -/
def writeSuperblock (sfs : Segment) : Ret :=
  if sfs.type ≠ .unload ∨ sfs.io.write 0 sizeofSuperBlock = sizeofSuperBlock then
    .success
  else .fail

def writeEmptyRootDirFrom (sfs : Segment) (blockSize : Nat) :
    Nat → Int → Option (Ret × Segment)
  | 0, _ => some (.success, sfs)
  | remaining + 1, block =>
    match sfsBlockWrite sfs (block * blockSize) (List.replicate blockSize 0) with
    | none => none
    | some (.success, sfs) =>
      writeEmptyRootDirFrom sfs blockSize remaining (block + 1)
    | some (_, sfs) => some (.fail, sfs)

/-- A negative block size fails in the allocation of the empty block. -/
def writeEmptyRootDir (sfs : Segment) : Option (Ret × Segment) :=
  let superBlock := sfs.superBlock
  if superBlock.blockSize < 0 then some (.fail, sfs)
  else
    writeEmptyRootDirFrom sfs superBlock.blockSize.toNat
      (superBlock.blockCount - superBlock.startDirBlock).toNat
      superBlock.startDirBlock

/-- The first check compares as unsigned, so a negative block size passes it. -/
def sfsFormat (sfs : Segment) (option : UInt32) (size blockSize : Int) :
    Option (Ret × Segment) :=
  if blockSize = 0 then none
  else if 0 ≤ blockSize ∧ blockSize * superBlockCount < sizeofSuperBlock then
    some (.fail, sfs)
  else if blockSize > maxBlockSize then some (.fail, sfs)
  else if size.tmod blockSize ≠ 0 then some (.fail, sfs)
  else if size.tdiv blockSize > 2 ^ numMaxBit then some (.fail, sfs)
  else
    let formatted :=
      { sfs with superBlock := formattedSuperBlock option size blockSize }
    match writeSuperblock formatted with
    | .success => writeEmptyRootDir formatted
    | _ => some (.fail, sfs)

def sfsClose (sfs : Segment) : Segment := { sfs with type := .unload }

def sfsOpen (sfs : Segment) (type : OpenType) : Ret × Segment :=
  if sfs.type ≠ .unload ∧ sfs.type = type then (.success, sfs)
  else
    let closed := sfsClose sfs
    if sfs.superBlock.magic = sfsMagic then (.success, { closed with type := type })
    else (.fail, closed)

end Wisebot.Sfs
