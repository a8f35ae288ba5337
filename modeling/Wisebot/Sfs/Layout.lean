import Mathlib.Tactic.Linarith
import Wisebot.Sfs.FileSystem

namespace Wisebot.Sfs

open Wisebot.Lib

/-! The layout of a formatted segment in natural numbers: header, allocation
table, file blocks and directory follow each other. -/

structure Geometry where
  fat : Bool
  blockSize : Nat
  blockCount : Nat
  fileStart : Nat
  dirStart : Nat
  dirCount : Nat
  perBlock : Nat
  header_fits : sizeofSuperBlock ≤ superBlockCount * blockSize
  entries_fit : sizeofDirEntry * perBlock ≤ blockSize
  dir_end : dirStart + dirCount = blockCount
  dir_behind_header : 0 < dirCount → sizeofSuperBlock ≤ dirStart * blockSize
  files_behind_header : superBlockCount ≤ fileStart
  files_behind_fat : fat = true →
    superBlockCount * blockSize + sizeofFatEntry * blockCount ≤ fileStart * blockSize
  size_fits : blockCount * blockSize < 2 ^ 31

/-- The super block describes the geometry. -/
structure Shaped (superBlock : SuperBlock) (geo : Geometry) : Prop where
  hasFat : superBlock.hasFat = geo.fat
  blockSize : superBlock.blockSize = geo.blockSize
  size : superBlock.size = (geo.blockCount * geo.blockSize : Nat)
  startFileBlock : superBlock.startFileBlock = geo.fileStart
  endFileBlock : superBlock.endFileBlock = geo.dirStart - 1
  startDirBlock : superBlock.startDirBlock = geo.dirStart
  endDirBlock : superBlock.endDirBlock = (geo.dirStart + geo.dirCount : Nat) - 1
  entryCountInBlock : superBlock.entryCountInBlock = geo.perBlock
  dirBlockCount : superBlock.dirBlockCount = geo.dirCount

theorem Shaped.counters {superBlock : SuperBlock} {geo : Geometry}
    (shaped : Shaped superBlock geo) (minFileId maxFileId fileCount fileTotalByte
      freeBlockNum : Int) :
    Shaped { superBlock with
      minFileId := minFileId
      maxFileId := maxFileId
      fileCount := fileCount
      fileTotalByte := fileTotalByte
      freeBlockNum := freeBlockNum } geo :=
  ⟨shaped.hasFat, shaped.blockSize, shaped.size, shaped.startFileBlock,
    shaped.endFileBlock, shaped.startDirBlock, shaped.endDirBlock, shaped.entryCountInBlock,
    shaped.dirBlockCount⟩

structure Mounted (sfs : Segment) (geo : Geometry) : Prop where
  shaped : Shaped sfs.superBlock geo
  reliable : sfs.io.Reliable

namespace Geometry

variable (geo : Geometry)

def slotOffset (block index : Nat) : Nat :=
  (geo.dirStart + block) * geo.blockSize + sizeofDirEntry * index

def fatOffset (num : Nat) : Nat :=
  superBlockCount * geo.blockSize + sizeofFatEntry * num

def entryAt (mem : Mem) (block index : Nat) : DirEntry :=
  DirEntry.decode (mem.read (geo.slotOffset block index) sizeofDirEntry)

def fatAt (mem : Mem) (num : Nat) : FatEntry :=
  FatEntry.decode (mem.read (geo.fatOffset num) sizeofFatEntry)

theorem blockSize_pos : 0 < geo.blockSize := by
  have fits := geo.header_fits
  simp only [sizeofSuperBlock, superBlockCount] at fits
  omega

theorem header_le_files : sizeofSuperBlock ≤ geo.fileStart * geo.blockSize :=
  geo.header_fits.trans (Nat.mul_le_mul_right _ geo.files_behind_header)

theorem slotOffset_ge (block index : Nat) :
    geo.dirStart * geo.blockSize ≤ geo.slotOffset block index :=
  (Nat.mul_le_mul_right _ (Nat.le_add_right _ _)).trans (Nat.le_add_right _ _)

theorem slotOffset_end (block : Nat) {index : Nat} (inBlock : index < geo.perBlock) :
    geo.slotOffset block index + sizeofDirEntry ≤
      (geo.dirStart + block + 1) * geo.blockSize := by
  have fits : sizeofDirEntry * (index + 1) ≤ geo.blockSize :=
    (Nat.mul_le_mul_left _ inBlock).trans geo.entries_fit
  rw [Nat.mul_add, Nat.mul_one] at fits
  rw [slotOffset, Nat.add_mul (geo.dirStart + block), Nat.one_mul]
  omega

variable {geo}

theorem dirBlock_end {block : Nat} (inDir : block < geo.dirCount) :
    (geo.dirStart + block + 1) * geo.blockSize ≤ geo.blockCount * geo.blockSize := by
  apply Nat.mul_le_mul_right
  have last := geo.dir_end
  omega

theorem slotOffset_disjoint {block index other place : Nat}
    (inBlock : index < geo.perBlock) (otherInBlock : place < geo.perBlock)
    (different : ¬ (block = other ∧ index = place)) :
    geo.slotOffset other place + sizeofDirEntry ≤ geo.slotOffset block index ∨
      geo.slotOffset block index + sizeofDirEntry ≤ geo.slotOffset other place := by
  have blockEnd := geo.slotOffset_end block inBlock
  have otherEnd := geo.slotOffset_end other otherInBlock
  rcases Nat.lt_trichotomy block other with below | same | above
  · have ordered := Nat.mul_le_mul_right geo.blockSize
      (show geo.dirStart + block + 1 ≤ geo.dirStart + other by omega)
    simp only [slotOffset] at *
    omega
  · subst same
    simp only [slotOffset, sizeofDirEntry]
    omega
  · have ordered := Nat.mul_le_mul_right geo.blockSize
      (show geo.dirStart + other + 1 ≤ geo.dirStart + block by omega)
    simp only [slotOffset] at *
    omega

theorem fatOffset_end {num : Nat} (fat : geo.fat = true)
    (bound : num < geo.blockCount) :
    geo.fatOffset num + sizeofFatEntry ≤ geo.fileStart * geo.blockSize := by
  have behind := geo.files_behind_fat fat
  simp only [fatOffset, sizeofFatEntry] at *
  omega

theorem header_le_fatOffset (geo : Geometry) (num : Nat) : sizeofSuperBlock ≤ geo.fatOffset num :=
  geo.header_fits.trans (Nat.le_add_right _ _)

section Frames

variable {mem : Mem} {start : Nat} {bytes : List UInt8}

theorem entryAt_write_below (below : start + bytes.length ≤ geo.dirStart * geo.blockSize)
    (block index : Nat) :
    geo.entryAt (mem.write start bytes) block index = geo.entryAt mem block index := by
  have behind := geo.slotOffset_ge block index
  rw [entryAt, Mem.read_write_disjoint (.inr (by omega)), entryAt]

theorem fatAt_write_above (fat : geo.fat = true)
    (above : geo.fileStart * geo.blockSize ≤ start) {num : Nat}
    (bound : num < geo.blockCount) :
    geo.fatAt (mem.write start bytes) num = geo.fatAt mem num := by
  have before := fatOffset_end fat bound
  rw [fatAt, Mem.read_write_disjoint (.inl (by omega)), fatAt]

theorem fatAt_write_other {num other : Nat} {entry : FatEntry}
    (different : num ≠ other) :
    geo.fatAt (mem.write (geo.fatOffset other) entry.encode) num =
      geo.fatAt mem num := by
  rw [fatAt, Mem.read_write_disjoint, fatAt]
  simp only [fatOffset, sizeofFatEntry, FatEntry.encode, List.length_append,
    length_encodeWord]
  omega

theorem fatAt_write_same {num : Nat} {entry : FatEntry}
    (countFits : entry.count < 2 ^ 32) (numFits : entry.num < 2 ^ 32) :
    geo.fatAt (mem.write (geo.fatOffset num) entry.encode) num = entry := by
  have length : entry.encode.length = sizeofFatEntry := by
    simp [FatEntry.encode, sizeofFatEntry]
  rw [fatAt, ← length, Mem.read_write]
  simp [FatEntry.decode, FatEntry.encode,
    decodeWord_encodeWord (show entry.count < 256 ^ 4 from countFits),
    decodeWord_encodeWord (show entry.num < 256 ^ 4 from numFits)]

end Frames

end Geometry

namespace DirEntry

structure Fits (entry : DirEntry) : Prop where
  id : entry.id < 2 ^ 32
  size : entry.size < 2 ^ 32
  firstBlockNum : entry.firstBlockNum < 2 ^ 32
  lastBlockNum : entry.lastBlockNum < 2 ^ 32

@[simp] theorem length_encode (entry : DirEntry) :
    entry.encode.length = sizeofDirEntry := by
  simp [encode, sizeofDirEntry]

theorem decode_encode {entry : DirEntry} (fits : entry.Fits) :
    decode entry.encode = entry := by
  simp [decode, encode, drop_encodeWord_append,
    decodeWord_encodeWord (show entry.id < 256 ^ 4 from fits.id),
    decodeWord_encodeWord (show entry.size < 256 ^ 4 from fits.size),
    decodeWord_encodeWord (show entry.firstBlockNum < 256 ^ 4 from fits.firstBlockNum),
    decodeWord_encodeWord (show entry.lastBlockNum < 256 ^ 4 from fits.lastBlockNum)]

theorem decode_patchId {bytes : List UInt8} {id : Nat} (fits : id < 2 ^ 32) :
    decode (encodeWord 4 id ++ bytes.drop 4) = { decode bytes with id := id } := by
  simp [decode, drop_encodeWord_append, List.drop_drop,
    decodeWord_encodeWord (show id < 256 ^ 4 from fits)]

end DirEntry

namespace Mounted

variable {sfs : Segment} {geo : Geometry}

theorem within (mounted : Mounted sfs geo) {start count : Nat}
    (behindHeader : sizeofSuperBlock ≤ start)
    (inside : start + count ≤ geo.blockCount * geo.blockSize) :
    sfs.Within start count := by
  constructor
  · exact_mod_cast behindHeader
  · rw [mounted.shaped.size]
    exact_mod_cast inside

theorem sfsBlockRead (mounted : Mounted sfs geo) {start count : Nat}
    (behindHeader : sizeofSuperBlock ≤ start)
    (inside : start + count ≤ geo.blockCount * geo.blockSize) :
    sfsBlockRead sfs start count = some (.ok (sfs.mem.read start count)) := by
  rw [Sfs.sfsBlockRead, if_pos (mounted.within behindHeader inside),
    if_pos (.inr (mounted.reliable.read _ _)), Int.toNat_natCast]

theorem sfsBlockWrite (mounted : Mounted sfs geo) (buf : List UInt8) {start : Nat}
    (behindHeader : sizeofSuperBlock ≤ start)
    (inside : start + buf.length ≤ geo.blockCount * geo.blockSize) :
    sfsBlockWrite sfs start buf =
      some (.success, { sfs with mem := sfs.mem.write start buf }) := by
  rw [Sfs.sfsBlockWrite, if_pos (mounted.within behindHeader inside)]
  split
  · rw [Int.toNat_natCast]
  · simp only [mounted.reliable.write, if_pos, List.take_length, Int.toNat_natCast]

theorem sfsBlockRead_outside (mounted : Mounted sfs geo) {block : Nat}
    (outside : geo.dirCount ≤ block) :
    Sfs.sfsBlockRead sfs ((geo.dirStart + block : Nat) * geo.blockSize : Int)
      geo.blockSize = none := by
  rw [Sfs.sfsBlockRead, if_neg]
  rintro ⟨-, inside⟩
  rw [mounted.shaped.size] at inside
  have positive := geo.blockSize_pos
  have past : geo.blockCount * geo.blockSize ≤ (geo.dirStart + block) * geo.blockSize := by
    apply Nat.mul_le_mul_right
    have last := geo.dir_end
    omega
  have bound : (geo.dirStart + block) * geo.blockSize + geo.blockSize ≤
      geo.blockCount * geo.blockSize := by exact_mod_cast inside
  omega

theorem write (mounted : Mounted sfs geo) (start : Nat) (buf : List UInt8) :
    Mounted { sfs with mem := sfs.mem.write start buf } geo :=
  ⟨mounted.shaped, mounted.reliable⟩

end Mounted

theorem fatEntryOffset_eq {superBlock : SuperBlock} {geo : Geometry}
    (shaped : Shaped superBlock geo) (num : Nat) :
    fatEntryOffset superBlock num = geo.fatOffset num := by
  have divide := Int.tdiv_mul_add_tmod
    ((num * sizeofFatEntry : Nat) : Int) (geo.blockSize : Int)
  simp only [fatEntryOffset, shaped.blockSize, Geometry.fatOffset, Int.add_mul]
  push_cast at divide ⊢
  linarith

end Wisebot.Sfs
