import Wisebot.Lib.Probing
import Wisebot.Sfs.Layout

namespace Wisebot.Sfs

open Wisebot.Lib

/-! `dir_find_entry` as a search along the probe sequence of the file id. -/

def nextProbe (dirCount block step : Nat) : Nat :=
  if dirCount ≤ block + step then block + step - dirCount else block + step

def probesFrom (dirCount : Nat) : List Nat → Nat → List Nat
  | [], block => [block]
  | step :: retries, block =>
    block :: probesFrom dirCount retries (nextProbe dirCount block step)

namespace Geometry

variable (geo : Geometry)

def probes (fileId : Nat) : List Nat :=
  probesFrom geo.dirCount nextBlock (fileId % geo.dirCount)

def ids (mem : Mem) (block index : Nat) : Nat := (geo.entryAt mem block index).id

def search (mem : Mem) (fileId : Nat) : Probing.Stop :=
  Probing.walk 0 geo.dirCount geo.perBlock (geo.ids mem) fileId (geo.probes fileId)

end Geometry

def DirOp.missing : DirOp → DirResult
  | .add => .segmentFull
  | _ => .fileNotExists

def putSlot (sfs : Segment) (geo : Geometry) (block index : Nat)
    (bytes : List UInt8) : Segment :=
  { sfs with mem := sfs.mem.write (geo.slotOffset block index) bytes }

def DirOp.atEntry (op : DirOp) (sfs : Segment) (geo : Geometry)
    (fileId block index : Nat) : DirResult × Segment :=
  let entry := geo.entryAt sfs.mem block index
  match op with
  | .add =>
    if entry.id = 0 then
      (.success, putSlot sfs geo block index (encodeWord 4 fileId))
    else (.fail, sfs)
  | .update changed =>
    if entry.id = 0 then (.fileNotExists, sfs)
    else (.success, putSlot sfs geo block index changed.encode)
  | .find => if entry.id = 0 then (.fileNotExists, sfs) else (.found entry, sfs)

def DirOp.outcome (op : DirOp) (sfs : Segment) (geo : Geometry) (fileId : Nat) :
    Probing.Stop → Option (DirResult × Segment)
  | .outside => none
  | .exhausted => some (op.missing, sfs)
  | .place block index => some (op.atEntry sfs geo fileId block index)

section Block

variable {geo : Geometry} {mem : Mem} {block : Nat}

theorem entryInBlock_eq (mem : Mem) (block : Nat) {index : Nat} (inBlock : index < geo.perBlock) :
    entryInBlock (mem.read ((geo.dirStart + block) * geo.blockSize) geo.blockSize)
      index = geo.entryAt mem block index := by
  have fits : sizeofDirEntry * (index + 1) ≤ geo.blockSize :=
    (Nat.mul_le_mul_left _ inBlock).trans geo.entries_fit
  rw [entryInBlock, Mem.read_slice mem _ (by rwa [Nat.mul_add] at fits)]
  rfl

/-- The stop of a scan, given the index the search stops at. -/
def Scan.of (entry : Nat → DirEntry) : Option Nat → Scan
  | none => .exhausted
  | some index =>
    if (entry index).id = 0 then .empty index else .found index (entry index)

theorem scanBlock_range (fileId : Nat) {remaining index : Nat}
    (inBlock : index + remaining ≤ geo.perBlock) :
    scanBlock (mem.read ((geo.dirStart + block) * geo.blockSize) geo.blockSize)
      fileId remaining index =
    Scan.of (geo.entryAt mem block) ((List.range' index remaining).find? fun place =>
      Probing.Stops 0 (geo.ids mem block) fileId place) := by
  induction remaining generalizing index with
  | zero => rfl
  | succ remaining induction =>
    have here := entryInBlock_eq mem block
      (show index < geo.perBlock by omega)
    rw [scanBlock, List.range'_succ, List.find?_cons]
    simp only [here, Probing.Stops, Geometry.ids]
    by_cases isFree : (geo.entryAt mem block index).id = 0
    · simp [isFree, Scan.of]
    · by_cases same : (geo.entryAt mem block index).id = fileId
      · simp [same, Scan.of]
      · rw [if_neg isFree, if_neg same, induction (by omega)]
        simp [isFree, same, Probing.Stops, Geometry.ids]

theorem scanBlock_eq (fileId : Nat) :
    scanBlock (mem.read ((geo.dirStart + block) * geo.blockSize) geo.blockSize)
      fileId geo.perBlock 0 =
    Scan.of (geo.entryAt mem block)
      (Probing.stopInRow 0 geo.perBlock (geo.ids mem block) fileId) := by
  rw [scanBlock_range fileId (by omega), ← List.range_eq_range']
  rfl

end Block

namespace Shaped

variable {superBlock : SuperBlock} {geo : Geometry}

theorem nextBlockIdx (shaped : Shaped superBlock geo) (block step : Nat) :
    nextBlockIdx superBlock block step = (nextProbe geo.dirCount block step : Nat) := by
  rw [Sfs.nextBlockIdx, nextProbe, shaped.startDirBlock, shaped.endDirBlock]
  split <;> split <;> omega

theorem getBlockIdx (shaped : Shaped superBlock geo) (fileId : Nat) :
    getBlockIdx fileId superBlock.dirBlockCount = (fileId % geo.dirCount : Nat) := by
  rw [Sfs.getBlockIdx, shaped.dirBlockCount, hashFunc]
  exact_mod_cast Int.tmod_eq_emod_of_nonneg (Int.natCast_nonneg fileId)

end Shaped

namespace Mounted

variable {sfs : Segment} {geo : Geometry}

theorem readDirBlock (mounted : Mounted sfs geo) {block : Nat}
    (inDir : block < geo.dirCount) :
    Sfs.sfsBlockRead sfs ((sfs.superBlock.startDirBlock + (block : Int)) *
      sfs.superBlock.blockSize) sfs.superBlock.blockSize.toNat =
    some (.ok (sfs.mem.read ((geo.dirStart + block) * geo.blockSize)
      geo.blockSize)) := by
  have start := geo.dir_behind_header (Nat.zero_lt_of_lt inDir)
  have behind : sizeofSuperBlock ≤ (geo.dirStart + block) * geo.blockSize :=
    start.trans (Nat.mul_le_mul_right _ (Nat.le_add_right _ _))
  have inside := Geometry.dirBlock_end inDir
  rw [Nat.add_mul _ 1, Nat.one_mul] at inside
  have read := mounted.sfsBlockRead behind inside
  rw [mounted.shaped.startDirBlock, mounted.shaped.blockSize, Int.toNat_natCast]
  exact_mod_cast read

theorem slot_within {block index : Nat}
    (inDir : block < geo.dirCount) (inBlock : index < geo.perBlock) :
    sizeofSuperBlock ≤ geo.slotOffset block index ∧
      geo.slotOffset block index + sizeofDirEntry ≤ geo.blockCount * geo.blockSize :=
  ⟨(geo.dir_behind_header (Nat.zero_lt_of_lt inDir)).trans
      (geo.slotOffset_ge block index),
    (geo.slotOffset_end block inBlock).trans (Geometry.dirBlock_end inDir)⟩

theorem updateEntryInBlock (mounted : Mounted sfs geo) {block index : Nat}
    (inDir : block < geo.dirCount) (inBlock : index < geo.perBlock)
    (entry : DirEntry) :
    Sfs.updateEntryInBlock sfs ((sfs.superBlock.startDirBlock + (block : Int)) *
      sfs.superBlock.blockSize) index entry =
    some (.success, putSlot sfs geo block index entry.encode) := by
  obtain ⟨behind, inside⟩ := slot_within inDir inBlock
  have written := mounted.sfsBlockWrite entry.encode behind (by simpa)
  have offset : (sfs.superBlock.startDirBlock + (block : Int)) *
      sfs.superBlock.blockSize + sizeofDirEntry * index =
      (geo.slotOffset block index : Int) := by
    rw [mounted.shaped.startDirBlock, mounted.shaped.blockSize, Geometry.slotOffset]
    push_cast
    rfl
  rw [Sfs.updateEntryInBlock, offset, written]
  rfl

theorem addEntryInBlock (mounted : Mounted sfs geo) {block index : Nat}
    (inDir : block < geo.dirCount) (inBlock : index < geo.perBlock) (fileId : Nat) :
    Sfs.addEntryInBlock sfs ((sfs.superBlock.startDirBlock + (block : Int)) *
      sfs.superBlock.blockSize)
      (sfs.mem.read ((geo.dirStart + block) * geo.blockSize) geo.blockSize)
      index fileId =
    some (.success, putSlot sfs geo block index (encodeWord 4 fileId)) := by
  obtain ⟨behind, inside⟩ := slot_within inDir inBlock
  have offset : (sfs.superBlock.startDirBlock + (block : Int)) *
      sfs.superBlock.blockSize = ((geo.dirStart + block) * geo.blockSize : Nat) := by
    rw [mounted.shaped.startDirBlock, mounted.shaped.blockSize]
    push_cast
    rfl
  rw [Sfs.addEntryInBlock, offset]
  by_cases mapped : sfs.type = .mmap
  · have place : ((geo.dirStart + block) * geo.blockSize : Nat) +
        ((sizeofDirEntry * index : Nat) : Int) = (geo.slotOffset block index : Int) := by
      rw [Geometry.slotOffset]
      push_cast
      rfl
    have written := mounted.sfsBlockWrite (encodeWord 4 fileId) behind (by
      rw [length_encodeWord]
      simp only [sizeofDirEntry] at inside
      omega)
    simp only [if_pos mapped, place, written]
    rfl
  · have fits : sizeofDirEntry * index + (encodeWord 4 fileId).length ≤
        geo.blockSize := by
      have whole : sizeofDirEntry * (index + 1) ≤ geo.blockSize :=
        (Nat.mul_le_mul_left _ inBlock).trans geo.entries_fit
      rw [length_encodeWord]
      simp only [sizeofDirEntry] at whole ⊢
      omega
    have patched := Mem.write_patched sfs.mem ((geo.dirStart + block) * geo.blockSize)
      fits
    rw [length_encodeWord] at patched
    have blockBehind : sizeofSuperBlock ≤ (geo.dirStart + block) * geo.blockSize :=
      (geo.dir_behind_header (Nat.zero_lt_of_lt inDir)).trans
        (Nat.mul_le_mul_right _ (Nat.le_add_right _ _))
    have blockInside := Geometry.dirBlock_end inDir
    rw [Nat.add_mul _ 1, Nat.one_mul] at blockInside
    have written := mounted.sfsBlockWrite
      ((sfs.mem.read ((geo.dirStart + block) * geo.blockSize)
        geo.blockSize).take (sizeofDirEntry * index) ++ (encodeWord 4 fileId ++
        (sfs.mem.read ((geo.dirStart + block) * geo.blockSize)
          geo.blockSize).drop (sizeofDirEntry * index + 4))) blockBehind (by
      rw [length_encodeWord] at fits
      simp
      omega)
    simp only [if_neg mapped, written, patched]
    rfl

theorem dirFindFrom_stop (mounted : Mounted sfs geo) {fileId block index : Nat}
    (op : DirOp) (retries : List Nat) (inDir : block < geo.dirCount)
    (stop : Probing.stopInRow 0 geo.perBlock (geo.ids sfs.mem block) fileId =
      some index) :
    Sfs.dirFindFrom sfs fileId op retries block =
      some (op.atEntry sfs geo fileId block index) := by
  have inBlock := (Probing.stopInRow_eq_some.mp stop).2.1
  unfold Sfs.dirFindFrom
  simp only [mounted.readDirBlock inDir, mounted.shaped.entryCountInBlock,
    Int.toNat_natCast, scanBlock_eq, stop, Scan.of]
  by_cases isFree : (geo.entryAt sfs.mem block index).id = 0
  · cases op with
    | add =>
      simp only [if_pos isFree, DirOp.atEntry]
      exact mounted.addEntryInBlock inDir inBlock fileId
    | update changed => simp [isFree, DirOp.atEntry]
    | find => simp [isFree, DirOp.atEntry]
  · cases op with
    | add => simp [isFree, DirOp.atEntry]
    | update changed =>
      simp only [if_neg isFree, DirOp.atEntry]
      exact mounted.updateEntryInBlock inDir inBlock changed
    | find => simp [isFree, DirOp.atEntry]

theorem dirFindFrom_outside (mounted : Mounted sfs geo) {fileId block : Nat}
    (op : DirOp) (retries : List Nat) (outside : ¬ block < geo.dirCount) :
    Sfs.dirFindFrom sfs fileId op retries block = none := by
  have refused := mounted.sfsBlockRead_outside (Nat.le_of_not_lt outside)
  push_cast at refused
  unfold Sfs.dirFindFrom
  simp only [mounted.shaped.startDirBlock, mounted.shaped.blockSize,
    Int.toNat_natCast, refused]

theorem dirFindFrom (mounted : Mounted sfs geo) (fileId : Nat) (op : DirOp)
    (retries : List Nat) (block : Nat) :
    Sfs.dirFindFrom sfs fileId op retries block =
      op.outcome sfs geo fileId (Probing.walk 0 geo.dirCount geo.perBlock
        (geo.ids sfs.mem) fileId (probesFrom geo.dirCount retries block)) := by
  induction retries generalizing block with
  | nil =>
    by_cases inDir : block < geo.dirCount
    · cases stop : Probing.stopInRow 0 geo.perBlock (geo.ids sfs.mem block) fileId with
      | some index =>
        rw [mounted.dirFindFrom_stop op [] inDir stop]
        simp [probesFrom, Probing.walk, inDir, stop, DirOp.outcome]
      | none =>
        unfold Sfs.dirFindFrom
        simp only [mounted.readDirBlock inDir, mounted.shaped.entryCountInBlock,
          Int.toNat_natCast, scanBlock_eq, stop, Scan.of]
        cases op <;>
          simp [probesFrom, Probing.walk, inDir, stop, DirOp.outcome,
            DirOp.missing]
    · rw [mounted.dirFindFrom_outside op [] inDir]
      simp [probesFrom, Probing.walk, inDir, DirOp.outcome]
  | cons step retries induction =>
    by_cases inDir : block < geo.dirCount
    · cases stop : Probing.stopInRow 0 geo.perBlock (geo.ids sfs.mem block) fileId with
      | some index =>
        rw [mounted.dirFindFrom_stop op _ inDir stop]
        simp [probesFrom, Probing.walk, inDir, stop, DirOp.outcome]
      | none =>
        have next := induction (nextProbe geo.dirCount block step)
        rw [← mounted.shaped.nextBlockIdx] at next
        unfold Sfs.dirFindFrom
        simp only [mounted.readDirBlock inDir, mounted.shaped.entryCountInBlock,
          Int.toNat_natCast, scanBlock_eq, stop, Scan.of]
        simp only [next, probesFrom, Probing.walk, inDir, stop, if_true]
    · rw [mounted.dirFindFrom_outside op _ inDir]
      simp [probesFrom, Probing.walk, inDir, DirOp.outcome]

theorem dirFindEntry (mounted : Mounted sfs geo) (fileId : Nat) (op : DirOp)
    (hasDir : 0 < geo.dirCount) :
    Sfs.dirFindEntry sfs fileId op =
      op.outcome sfs geo fileId (geo.search sfs.mem fileId) := by
  have count := mounted.shaped.dirBlockCount
  have start := mounted.shaped.getBlockIdx fileId
  rw [Sfs.dirFindEntry, if_neg (by rw [count]; exact_mod_cast hasDir.ne'), start]
  exact mounted.dirFindFrom fileId op nextBlock _

theorem dirFindEntry_none (mounted : Mounted sfs geo) (fileId : Nat) (op : DirOp)
    (noDir : geo.dirCount = 0) : Sfs.dirFindEntry sfs fileId op = none := by
  rw [Sfs.dirFindEntry, if_pos]
  rw [mounted.shaped.dirBlockCount, noDir]
  rfl

end Mounted

end Wisebot.Sfs
