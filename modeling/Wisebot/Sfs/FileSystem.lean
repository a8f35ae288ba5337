import Mathlib.Data.List.Sort
import Wisebot.Sfs.SuperBlock

namespace Wisebot.Sfs

open Wisebot.Lib

/-! The directory (`directory.c`): a hash table of blocks with a fixed probe
sequence. -/

def nextBlock : List Nat := [7, 13, 17, 23, 41]

inductive DirOp where
  | add
  | update (entry : DirEntry)
  | find

/-- The result of a directory operation, with the entry `DIR_OP_FIND` copies. -/
inductive DirResult where
  | success
  | found (entry : DirEntry)
  | fileNotExists
  | segmentFull
  | fail
  deriving DecidableEq

inductive Scan where
  | empty (index : Nat)
  | found (index : Nat) (entry : DirEntry)
  | exhausted
  deriving DecidableEq

def entryInBlock (block : List UInt8) (index : Nat) : DirEntry :=
  DirEntry.decode ((block.drop (sizeofDirEntry * index)).take sizeofDirEntry)

def scanBlock (block : List UInt8) (fileId : Nat) : (remaining index : Nat) → Scan
  | 0, _ => .exhausted
  | remaining + 1, index =>
    let entry := entryInBlock block index
    if entry.id = 0 then .empty index
    else if entry.id = fileId then .found index entry
    else scanBlock block fileId remaining (index + 1)

/-- `DIR_OP_ADD` on a free entry: a mapped block is changed in place, a block
that was read is written back as a whole. -/
def addEntryInBlock (sfs : Segment) (offset : Int) (block : List UInt8)
    (index fileId : Nat) : Option (DirResult × Segment) :=
  let position := sizeofDirEntry * index
  let written :=
    if sfs.type = .mmap then
      sfsBlockWrite sfs (offset + position) (encodeWord 4 fileId)
    else
      sfsBlockWrite sfs offset
        (block.take position ++ (encodeWord 4 fileId ++ block.drop (position + 4)))
  match written with
  | none => none
  | some (.success, sfs) => some (.success, sfs)
  | some (_, sfs) => some (.fail, sfs)

def updateEntryInBlock (sfs : Segment) (offset : Int) (index : Nat)
    (entry : DirEntry) : Option (DirResult × Segment) :=
  match sfsBlockWrite sfs (offset + sizeofDirEntry * index) entry.encode with
  | none => none
  | some (.success, sfs) => some (.success, sfs)
  | some (_, sfs) => some (.fail, sfs)

def nextBlockIdx (superBlock : SuperBlock) (blockIdx : Int) (step : Nat) : Int :=
  let blockIdx := blockIdx + step
  if superBlock.startDirBlock + blockIdx > superBlock.endDirBlock then
    blockIdx - (superBlock.endDirBlock - superBlock.startDirBlock + 1)
  else blockIdx

def dirFindFrom (sfs : Segment) (fileId : Nat) (op : DirOp) :
    List Nat → Int → Option (DirResult × Segment)
  | retries, blockIdx =>
    let superBlock := sfs.superBlock
    let offset := (superBlock.startDirBlock + blockIdx) * superBlock.blockSize
    match sfsBlockRead sfs offset superBlock.blockSize.toNat with
    | none => none
    | some (.error _) => some (.fail, sfs)
    | some (.ok block) =>
      match scanBlock block fileId superBlock.entryCountInBlock.toNat 0, op with
      | .empty index, .add => addEntryInBlock sfs offset block index fileId
      | .empty _, _ => some (.fileNotExists, sfs)
      | .found _ entry, .find => some (.found entry, sfs)
      | .found _ _, .add => some (.fail, sfs)
      | .found index _, .update entry => updateEntryInBlock sfs offset index entry
      | .exhausted, op =>
        match retries with
        | step :: retries =>
          dirFindFrom sfs fileId op retries
            (nextBlockIdx superBlock blockIdx step)
        | [] =>
          match op with
          | .add => some (.segmentFull, sfs)
          | _ => some (.fileNotExists, sfs)

def hashFunc (key : Nat) : Nat := key

def getBlockIdx (fileId : Nat) (blockCount : Int) : Int :=
  (hashFunc fileId : Int).tmod blockCount

def dirFindEntry (sfs : Segment) (fileId : Nat) (op : DirOp) :
    Option (DirResult × Segment) :=
  if sfs.superBlock.dirBlockCount = 0 then none
  else
    dirFindFrom sfs fileId op nextBlock
      (getBlockIdx fileId sfs.superBlock.dirBlockCount)

def dirGetEntry (sfs : Segment) (fileId : Nat) : Option (Except Failure DirEntry) :=
  match dirFindEntry sfs fileId .find with
  | none => none
  | some (.found entry, _) => some (.ok entry)
  | some (.fileNotExists, _) => some (.error .fileNotExists)
  | some (_, _) => some (.error .fail)

def dirAddEntry (sfs : Segment) (fileId : Nat) : Option (Ret × Segment) :=
  match dirFindEntry sfs fileId .add with
  | none => none
  | some (.segmentFull, sfs) => some (.segmentFull, sfs)
  | some (.success, sfs) => some (.success, sfs)
  | some (_, sfs) => some (.fail, sfs)

def dirUpdateEntry (sfs : Segment) (entry : DirEntry) : Option (DirResult × Segment) :=
  dirFindEntry sfs entry.id (.update entry)

/-- The ids of one block up to its first free entry. -/
def idsInBlock (block : List UInt8) : (remaining index : Nat) → List Nat
  | 0, _ => []
  | remaining + 1, index =>
    let entry := entryInBlock block index
    if entry.id = 0 then []
    else entry.id :: idsInBlock block remaining (index + 1)

def dirIdsFrom (sfs : Segment) : Nat → Int → Option (Except Failure (List Nat))
  | 0, _ => some (.ok [])
  | remaining + 1, blockIdx =>
    let superBlock := sfs.superBlock
    let offset := (superBlock.startDirBlock + blockIdx) * superBlock.blockSize
    match sfsBlockRead sfs offset superBlock.blockSize.toNat with
    | none => none
    | some (.error _) => some (.error .fail)
    | some (.ok block) =>
      match dirIdsFrom sfs remaining (blockIdx + 1) with
      | none => none
      | some (.error failure) => some (.error failure)
      | some (.ok ids) =>
        some (.ok (idsInBlock block superBlock.entryCountInBlock.toNat 0 ++ ids))

/-- `sfs_get_file_array`: the caller's array has `file_count` places, all of
which are sorted; it has to receive exactly so many ids. -/
def sfsGetFileArray (sfs : Segment) : Option (Except Failure (List Nat)) :=
  match dirIdsFrom sfs sfs.superBlock.dirBlockCount.toNat 0 with
  | none => none
  | some (.error failure) => some (.error failure)
  | some (.ok ids) =>
    if (ids.length : Int) = sfs.superBlock.fileCount then
      some (.ok (ids.insertionSort (· ≤ ·)))
    else none

/-- The entries of a block up to the first free one, emptied for `dir_copy`,
followed by the bytes behind them; with the number of entries. -/
def emptiedEntries (block : List UInt8) : (remaining index : Nat) → List UInt8 × Nat
  | 0, index => (block.drop (sizeofDirEntry * index), index)
  | remaining + 1, index =>
    let entry := entryInBlock block index
    if entry.id = 0 then (block.drop (sizeofDirEntry * index), index)
    else
      let rest := emptiedEntries block remaining (index + 1)
      ({ entry with size := 0, firstBlockNum := 0, lastBlockNum := 0 }.encode ++
        rest.1, rest.2)

def dirCopyFrom (src : Segment) : Nat → Int → Segment → Option (Ret × Segment)
  | 0, _, dest => some (.success, dest)
  | remaining + 1, blockIdx, dest =>
    let superBlock := src.superBlock
    let offset := (superBlock.startDirBlock + blockIdx) * superBlock.blockSize
    match sfsBlockRead src offset superBlock.blockSize.toNat with
    | none => none
    | some (.error _) => some (.fail, dest)
    | some (.ok block) =>
      let emptied := emptiedEntries block superBlock.entryCountInBlock.toNat 0
      if emptied.2 = 0 then dirCopyFrom src remaining (blockIdx + 1) dest
      else
        match sfsBlockWrite dest offset emptied.1 with
        | none => none
        | some (.success, dest) => dirCopyFrom src remaining (blockIdx + 1) dest
        | some (_, dest) => some (.fail, dest)

/-- `sfs_directory_copy`, that is `dir_copy`. -/
def sfsDirectoryCopy (src dest : Segment) : Option (Ret × Segment) :=
  if src.superBlock.blockSize ≠ dest.superBlock.blockSize ∨
      src.superBlock.startDirBlock ≠ dest.superBlock.startDirBlock ∨
      src.superBlock.dirBlockCount ≠ dest.superBlock.dirBlockCount ∨
      src.superBlock.entryCountInBlock ≠ dest.superBlock.entryCountInBlock then
    some (.fail, dest)
  else
    match dirCopyFrom src src.superBlock.dirBlockCount.toNat 0 dest with
    | none => none
    | some (.success, dest) =>
      some (.success, { dest with superBlock := { dest.superBlock with
        fileCount := src.superBlock.fileCount
        minFileId := src.superBlock.minFileId
        maxFileId := src.superBlock.maxFileId } })
    | some (ret, dest) => some (ret, dest)

/-! The file allocation table (`fat.c`). -/

/-- `__get_sfs_block(n) * block_size + __get_fat_entry_offset_in_sfs_block(n)`. -/
def fatEntryOffset (superBlock : SuperBlock) (num : Nat) : Int :=
  let offset : Int := num * sizeofFatEntry
  (offset.tdiv superBlock.blockSize + superBlockCount) * superBlock.blockSize +
    offset.tmod superBlock.blockSize

def writeFatEntry (sfs : Segment) (num : Nat) (entry : FatEntry) : Option (Ret × Segment) :=
  if sfs.superBlock.hasFat then
    if num < superBlockCount then some (.fail, sfs)
    else sfsBlockWrite sfs (fatEntryOffset sfs.superBlock num) entry.encode
  else some (.success, sfs)

/-- Without a table the one extent of a file follows from its size. -/
def readFatEntry (sfs : Segment) (file : DirEntry) (num : Nat) :
    Option (Except Failure FatEntry) :=
  if sfs.superBlock.hasFat then
    match sfsBlockRead sfs (fatEntryOffset sfs.superBlock num) sizeofFatEntry with
    | none => none
    | some (.error failure) => some (.error failure)
    | some (.ok bytes) => some (.ok (FatEntry.decode bytes))
  else
    let blockSize := sfs.superBlock.blockSize.toNat
    let count := file.size / blockSize + 1
    let count := if file.size % blockSize = 0 then count - 1 else count
    if file.firstBlockNum ≠ num then some (.error .fail)
    else some (.ok { count := count, num := 0 })

def fatGetEntry (sfs : Segment) (file : DirEntry) (blockNum : Nat) :
    Option (Except Failure FatEntry) :=
  if blockNum < superBlockCount then some (.error .fail)
  else if sfs.superBlock.freeBlockNum ≤ blockNum then some (.error .fail)
  else readFatEntry sfs file blockNum

def moveFreeBlock (sfs : Segment) (count : Nat) : Segment :=
  { sfs with superBlock := { sfs.superBlock with
    freeBlockNum := sfs.superBlock.freeBlockNum + count } }

/-- What `fat_allocate` leaves in its parameters: the current and the next
entry. -/
structure Allocation where
  entry : FatEntry
  next : FatEntry
  deriving DecidableEq

def fatAllocate (sfs : Segment) (entry : FatEntry) (beforeBlockNum allocCount : Nat) :
    Option (Ret × Allocation × Segment) :=
  let maxAllocCount := 2 ^ countMaxBit - 1
  let freeBlockNum := sfs.superBlock.freeBlockNum
  let freeBlockCount := sfs.superBlock.endFileBlock - freeBlockNum + 1
  if freeBlockCount ≤ 0 then some (.segmentFull, ⟨entry, ⟨0, 0⟩⟩, sfs)
  else
    let allocCount := min (min allocCount freeBlockCount.toNat) maxAllocCount
    let justExtended :=
      beforeBlockNum ≠ 0 ∧ (beforeBlockNum + entry.count : Nat) = freeBlockNum ∧
        entry.count < maxAllocCount
    if beforeBlockNum ≠ 0 ∧ sfs.superBlock.hasFat = false ∧ ¬ justExtended then
      some (.fail, ⟨entry, ⟨0, 0⟩⟩, sfs)
    else if justExtended then
      let allocCount := min allocCount (maxAllocCount - entry.count)
      let next : FatEntry := ⟨entry.count + allocCount, 0⟩
      match writeFatEntry (moveFreeBlock sfs allocCount) beforeBlockNum next with
      | none => none
      | some (.success, sfs) => some (.success, ⟨entry, next⟩, sfs)
      | some (_, sfs) => some (.fail, ⟨entry, next⟩, sfs)
    else
      let moved := moveFreeBlock sfs allocCount
      let entry : FatEntry := ⟨entry.count, freeBlockNum.toNat⟩
      let next : FatEntry := ⟨allocCount, 0⟩
      let linked :=
        if beforeBlockNum = 0 then some (.success, moved)
        else writeFatEntry moved beforeBlockNum entry
      match linked with
      | none => none
      | some (.success, sfs) =>
        match writeFatEntry sfs freeBlockNum.toNat next with
        | none => none
        | some (.success, sfs) => some (.success, ⟨entry, next⟩, sfs)
        | some (_, sfs) => some (.fail, ⟨entry, next⟩, sfs)
      | some (_, sfs) => some (.fail, ⟨entry, ⟨0, 0⟩⟩, sfs)

/-! Files (`mod_sfs.c`). -/

structure Inode where
  dirEntry : DirEntry
  currFatEntry : FatEntry
  sfsBlockNum : Nat
  offsetInSfsBlocks : Nat
  endOfSfsBlocks : Nat
  fileSizeInSfsBlocks : Nat
  deriving DecidableEq

structure SfsInfo where
  minFileId : Int
  maxFileId : Int
  fileCount : Int
  fileSize : Nat
  deriving DecidableEq

def sfsExistFile (sfs : Segment) (fileId : Nat) : Option (Except Failure DirEntry) :=
  if sfs.superBlock.minFileId ≤ fileId ∧ sfs.superBlock.maxFileId ≥ fileId then
    dirGetEntry sfs fileId
  else some (.error .fileNotExists)

/-- For the id 0 no file is looked up and the file size is left alone. -/
def sfsGetInfo (sfs : Segment) (fileId : Nat) : Option (Except Failure SfsInfo) :=
  let info : SfsInfo :=
    { minFileId := sfs.superBlock.minFileId
      maxFileId := sfs.superBlock.maxFileId
      fileCount := sfs.superBlock.fileCount
      fileSize := 0 }
  if fileId = 0 then some (.ok info)
  else
    match sfsExistFile sfs fileId with
    | none => none
    | some (.error failure) => some (.error failure)
    | some (.ok entry) => some (.ok { info with fileSize := entry.size })

def firstExtent (sfs : Segment) (file : DirEntry) :
    Option (Except Failure (Nat × FatEntry)) :=
  if file.firstBlockNum = 0 then some (.ok (0, ⟨0, 0⟩))
  else
    match fatGetEntry sfs file file.firstBlockNum with
    | none => none
    | some (.error failure) => some (.error failure)
    | some (.ok entry) => some (.ok (file.firstBlockNum, entry))

def openFile (sfs : Segment) (fileId : Nat) : Option (Except Failure Inode) :=
  match dirGetEntry sfs fileId with
  | none => none
  | some (.error _) => some (.error .fail)
  | some (.ok file) =>
    match firstExtent sfs file with
    | none => none
    | some (.error _) => some (.error .fail)
    | some (.ok (block, entry)) =>
      let extentEnd := entry.count * sfs.superBlock.blockSize.toNat
      some (.ok
        { dirEntry := file
          currFatEntry := entry
          sfsBlockNum := block
          offsetInSfsBlocks := 0
          endOfSfsBlocks := extentEnd
          fileSizeInSfsBlocks := if extentEnd > file.size then file.size else extentEnd })

/-- The `while` of `__seek_file_begin`; a step per extent. -/
def seekFileBeginLoop (sfs : Segment) (offset : Nat) :
    (fuel skipBytes : Nat) → Inode → Option (Except Failure Inode)
  | 0, _, _ => none
  | fuel + 1, skipBytes, inode =>
    if offset ≤ inode.endOfSfsBlocks + skipBytes then
      some (.ok { inode with
        fileSizeInSfsBlocks :=
          if inode.dirEntry.size ≤ inode.endOfSfsBlocks + skipBytes then
            inode.dirEntry.size - skipBytes
          else inode.endOfSfsBlocks
        offsetInSfsBlocks := offset - skipBytes })
    else
      match fatGetEntry sfs inode.dirEntry inode.currFatEntry.num with
      | none => none
      | some (.error failure) => some (.error failure)
      | some (.ok entry) =>
        seekFileBeginLoop sfs offset fuel (skipBytes + inode.endOfSfsBlocks)
          { inode with
            sfsBlockNum := inode.currFatEntry.num
            currFatEntry := entry
            endOfSfsBlocks := entry.count * sfs.superBlock.blockSize.toNat }

def seekFileBegin (sfs : Segment) (inode : Inode) (offset : Nat) :
    Option (Except Failure Inode) :=
  match firstExtent sfs inode.dirEntry with
  | none => none
  | some (.error failure) => some (.error failure)
  | some (.ok (block, entry)) =>
    if offset > inode.dirEntry.size then some (.error .fail)
    else
      seekFileBeginLoop sfs offset (offset + 1) 0
        { inode with
          sfsBlockNum := block
          currFatEntry := entry
          endOfSfsBlocks := entry.count * sfs.superBlock.blockSize.toNat
          offsetInSfsBlocks := 0 }

def lastBlockFill (size blockSize : Nat) : Nat :=
  if size % blockSize = 0 then blockSize else size % blockSize

def seekFileEnd (sfs : Segment) (inode : Inode) : Option (Except Failure Inode) :=
  let blockSize := sfs.superBlock.blockSize.toNat
  if inode.dirEntry.lastBlockNum = 0 then
    some (.ok { inode with
      sfsBlockNum := 0
      currFatEntry := ⟨0, 0⟩
      offsetInSfsBlocks := 0
      fileSizeInSfsBlocks := 0
      endOfSfsBlocks := 0 })
  else
    match fatGetEntry sfs inode.dirEntry inode.dirEntry.lastBlockNum with
    | none => none
    | some (.error failure) => some (.error failure)
    | some (.ok entry) =>
      if entry.count = 0 then some (.error .fail)
      else
        let offset := (entry.count - 1) * blockSize +
          lastBlockFill inode.dirEntry.size blockSize
        some (.ok { inode with
          sfsBlockNum := inode.dirEntry.lastBlockNum
          currFatEntry := entry
          offsetInSfsBlocks := offset
          fileSizeInSfsBlocks := offset
          endOfSfsBlocks := entry.count * blockSize })

def extendBlock (sfs : Segment) (inode : Inode) (allocCount : Nat) :
    Option (Ret × Inode × Segment) :=
  match fatAllocate sfs inode.currFatEntry inode.sfsBlockNum allocCount with
  | none => none
  | some (.success, allocated, extended) =>
    let blockSize := sfs.superBlock.blockSize.toNat
    let curr := allocated.entry
    let next := allocated.next
    let first :=
      if inode.dirEntry.firstBlockNum = 0 then curr.num
      else inode.dirEntry.firstBlockNum
    let file := { inode.dirEntry with firstBlockNum := first }
    if curr.num = next.num then
      let offset := curr.count * blockSize
      some (.success, { inode with
        dirEntry := file
        currFatEntry := next
        offsetInSfsBlocks := offset
        fileSizeInSfsBlocks := offset
        endOfSfsBlocks := next.count * blockSize }, extended)
    else if sfs.superBlock.hasFat = false ∧ curr.num ≠ first then
      some (.fail, { inode with dirEntry := file, currFatEntry := curr }, extended)
    else
      some (.success,
        { dirEntry := { file with lastBlockNum := curr.num }
          currFatEntry := next
          sfsBlockNum := curr.num
          offsetInSfsBlocks := 0
          fileSizeInSfsBlocks := 0
          endOfSfsBlocks := next.count * blockSize }, extended)
  | some (.segmentFull, _, sfs) => some (.segmentFull, inode, sfs)
  | some (_, _, sfs) => some (.fail, inode, sfs)

def getNeedBlock (writeSize blockSize : Nat) : Nat :=
  if writeSize % blockSize ≠ 0 then writeSize / blockSize + 1
  else writeSize / blockSize

/-- The loop of `__append_file` over the bytes still to write; it hands over
the number of bytes written with the code it stopped on. -/
def appendFileLoop : (fuel : Nat) → Segment → Inode → (total : Nat) → List UInt8 →
    Option (Ret × Nat × Inode × Segment)
  | 0, _, _, _, _ => none
  | fuel + 1, sfs, inode, total, buf =>
    if buf = [] then some (.success, total, inode, sfs)
    else
      let blockSize := sfs.superBlock.blockSize.toNat
      let extended :=
        if inode.offsetInSfsBlocks = inode.endOfSfsBlocks then
          extendBlock sfs inode (getNeedBlock buf.length blockSize)
        else some (.success, inode, sfs)
      match extended with
      | none => none
      | some (.success, inode, sfs) =>
        let writable :=
          min (inode.endOfSfsBlocks - inode.offsetInSfsBlocks) buf.length
        match sfsBlockWrite sfs
            (inode.sfsBlockNum * blockSize + inode.offsetInSfsBlocks : Nat)
            (buf.take writable) with
        | none => none
        | some (.success, sfs) =>
          appendFileLoop fuel sfs
            { inode with
              offsetInSfsBlocks := inode.offsetInSfsBlocks + writable
              fileSizeInSfsBlocks := inode.offsetInSfsBlocks + writable }
            (total + writable) (buf.drop writable)
        | some (ret, sfs) => some (ret, total, inode, sfs)
      | some (ret, inode, sfs) => some (ret, total, inode, sfs)

/-- The directory entry is updated on every exit; a failure of that is only
logged. -/
def appendFile (sfs : Segment) (inode : Inode) (buf : List UInt8) :
    Option (Except Failure Nat × Segment) :=
  match appendFileLoop (buf.length + 1) sfs inode 0 buf with
  | none => none
  | some (ret, total, inode, sfs) =>
    let file := { inode.dirEntry with size := inode.dirEntry.size + total }
    match dirUpdateEntry sfs file with
    | none => none
    | some (_, sfs) =>
      if ret = .success ∨ ret = .segmentFull then some (.ok total, sfs)
      else some (.error .fail, sfs)

/-- `writeByte` of a failed append is -1 and is counted as such. -/
def writeByteOf : Except Failure Nat → Int
  | .ok total => total
  | .error _ => -1

/-- The part of `sfs_append` behind the directory entry. -/
def appendExisting (sfs : Segment) (fileId : Nat) (buf : List UInt8) :
    Option (Except Failure Nat × Segment) :=
  match openFile sfs fileId with
  | none => none
  | some (.error _) => some (.error .fail, sfs)
  | some (.ok inode) =>
    match seekFileEnd sfs inode with
    | none => none
    | some (.error _) => some (.error .fail, sfs)
    | some (.ok inode) =>
      match appendFile sfs inode buf with
      | none => none
      | some (written, sfs) =>
        let counted :=
          superblockUpdateWriteByte sfs.superBlock (writeByteOf written)
        some (written, { sfs with superBlock := counted })

def sfsAppend (sfs : Segment) (fileId : Nat) (buf : List UInt8) :
    Option (Except Failure Nat × Segment) :=
  if fileId < 1 then some (.error .fail, sfs)
  else
    match sfsExistFile sfs fileId with
    | none => none
    | some (.ok _) => appendExisting sfs fileId buf
    | some (.error .fail) => some (.error .fail, sfs)
    | some (.error .fileNotExists) =>
      match dirAddEntry sfs fileId with
      | none => none
      | some (.segmentFull, sfs) => some (.ok 0, sfs)
      | some (.success, sfs) =>
        let counted := superblockAddFileCount sfs.superBlock fileId
        appendExisting { sfs with superBlock := counted } fileId buf
      | some (_, sfs) => some (.error .fail, sfs)

/-- At the end of its blocks `__read_file` moves to the next ones; behind the
last ones it is done. -/
def advanceExtent (sfs : Segment) (inode : Inode) :
    Option (Except Failure (Option Inode)) :=
  if inode.offsetInSfsBlocks = inode.endOfSfsBlocks then
    if inode.currFatEntry.num = 0 then some (.ok none)
    else
      match fatGetEntry sfs inode.dirEntry inode.currFatEntry.num with
      | none => none
      | some (.error failure) => some (.error failure)
      | some (.ok entry) =>
        let blockSize := sfs.superBlock.blockSize.toNat
        let extentEnd := entry.count * blockSize
        some (.ok (some { inode with
          sfsBlockNum := inode.currFatEntry.num
          currFatEntry := entry
          endOfSfsBlocks := extentEnd
          offsetInSfsBlocks := 0
          fileSizeInSfsBlocks :=
            if entry.num = 0 then
              (entry.count - 1) * blockSize +
                lastBlockFill inode.dirEntry.size blockSize
            else extentEnd }))
  else some (.ok (some inode))

/-- The loop of `__read_file`: the bytes it copies for `size` more. -/
def readFileLoop (sfs : Segment) :
    (fuel : Nat) → Inode → (size : Nat) → Option (Except Failure (List UInt8))
  | 0, _, _ => none
  | fuel + 1, inode, size =>
    if size = 0 then some (.ok [])
    else
      match advanceExtent sfs inode with
      | none => none
      | some (.error failure) => some (.error failure)
      | some (.ok none) => some (.ok [])
      | some (.ok (some inode)) =>
        let readable :=
          min (inode.fileSizeInSfsBlocks - inode.offsetInSfsBlocks) size
        if readable = 0 then some (.ok [])
        else
          match sfsBlockRead sfs
              (inode.sfsBlockNum * sfs.superBlock.blockSize.toNat +
                inode.offsetInSfsBlocks : Nat) readable with
          | none => none
          | some (.error failure) => some (.error failure)
          | some (.ok bytes) =>
            match readFileLoop sfs fuel
                { inode with
                  offsetInSfsBlocks := inode.offsetInSfsBlocks + readable }
                (size - readable) with
            | none => none
            | some (.error failure) => some (.error failure)
            | some (.ok rest) => some (.ok (bytes ++ rest))

/-- The bytes that `sfs_read` puts into the buffer; their number is its
return value. -/
def sfsRead (sfs : Segment) (fileId offset size : Nat) :
    Option (Except Failure (List UInt8)) :=
  if fileId < 1 then some (.error .fail)
  else
    match sfsExistFile sfs fileId with
    | none => none
    | some (.error failure) => some (.error failure)
    | some (.ok _) =>
      match openFile sfs fileId with
      | none => none
      | some (.error _) => some (.error .fail)
      | some (.ok inode) =>
        match seekFileBegin sfs inode offset with
        | none => none
        | some (.error _) => some (.error .fail)
        | some (.ok inode) => readFileLoop sfs (size + 1) inode size

section

variable {sfs : Segment}

theorem sfsBlockRead_error {offset : Int} {size : Nat} {failure : Failure}
    (run : sfsBlockRead sfs offset size = some (.error failure)) : failure = .fail := by
  rw [sfsBlockRead] at run
  split_ifs at run
  · cases run
  · cases run
    rfl

theorem fatGetEntry_error {file : DirEntry} {blockNum : Nat} {failure : Failure}
    (run : fatGetEntry sfs file blockNum = some (.error failure)) : failure = .fail := by
  rw [fatGetEntry, readFatEntry] at run
  split at run
  · cases run
    rfl
  · split at run
    · cases run
      rfl
    · split at run
      · split at run
        · cases run
        · next failed =>
          cases run
          exact sfsBlockRead_error failed
        · cases run
      · dsimp only at run
        split at run
        · cases run
          rfl
        · cases run

theorem advanceExtent_error {inode : Inode} {failure : Failure}
    (run : advanceExtent sfs inode = some (.error failure)) : failure = .fail := by
  rw [advanceExtent] at run
  split at run
  · split at run
    · cases run
    · split at run
      · cases run
      · next failed =>
        cases run
        exact fatGetEntry_error failed
      · cases run
  · cases run

theorem readFileLoop_error {fuel size : Nat} {inode : Inode} {failure : Failure}
    (run : readFileLoop sfs fuel inode size = some (.error failure)) : failure = .fail := by
  induction fuel generalizing inode size with
  | zero => cases run
  | succ fuel induction =>
    rw [readFileLoop] at run
    split at run
    · cases run
    · split at run
      · cases run
      · next failed =>
        cases run
        exact advanceExtent_error failed
      · cases run
      · dsimp only at run
        split at run
        · cases run
        · split at run
          · cases run
          · next failed =>
            cases run
            exact sfsBlockRead_error failed
          · split at run
            · cases run
            · next failed =>
              cases run
              exact induction failed
            · cases run

theorem sfsRead_found {fileId offset size : Nat} {entry : DirEntry}
    (found : sfsExistFile sfs fileId = some (.ok entry)) :
    sfsRead sfs fileId offset size ≠ some (.error .fileNotExists) := by
  intro run
  rw [sfsRead] at run
  split at run
  · cases run
  · rw [found] at run
    dsimp only at run
    split at run
    · cases run
    · cases run
    · split at run
      · cases run
      · cases run
      · cases readFileLoop_error run

end

end Wisebot.Sfs
