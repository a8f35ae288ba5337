import Wisebot.Sfs.AppendFiles

namespace Wisebot.Sfs

open Wisebot.Lib

/-! `sfs_format` yields an empty segment. -/

theorem getNeedBlock_ge {size blockSize : Nat} (positive : 0 < blockSize) :
    size ≤ getNeedBlock size blockSize * blockSize := by
  rcases Nat.eq_zero_or_pos size with zero | some
  · simp [zero]
  · exact (getNeedBlock_bounds positive some).2.2

theorem getNeedBlock_mul_le {unit count blockSize : Nat} (positive : 0 < blockSize)
    (small : unit ≤ blockSize) : getNeedBlock (unit * count) blockSize ≤ count := by
  rcases Nat.eq_zero_or_pos (unit * count) with zero | some
  · simp [getNeedBlock, zero]
  · have less := (getNeedBlock_bounds positive some).2.1
    have bound : unit * count ≤ count * blockSize := by
      rw [Nat.mul_comm]
      exact Nat.mul_le_mul_left count small
    have strict := Nat.lt_of_mul_lt_mul_right (less.trans_le bound)
    omega

theorem getNeedBlock_int (size blockSize : Nat) :
    (if Int.tmod size blockSize = 0 then Int.tdiv size blockSize
      else Int.tdiv size blockSize + 1) = (getNeedBlock size blockSize : Int) := by
  rw [getNeedBlock, Int.tmod_eq_emod_of_nonneg (Int.natCast_nonneg size),
    Int.tdiv_eq_ediv_of_nonneg (Int.natCast_nonneg size)]
  split
  case isTrue whole =>
    have divides : size % blockSize = 0 := by exact_mod_cast whole
    rw [if_neg (by omega)]
    rfl
  case isFalse broken =>
    have remains : size % blockSize ≠ 0 := by exact_mod_cast broken
    rw [if_pos remains]
    rfl

/-- `fat_init_superblock` in natural numbers: the first file block. -/
def firstFileBlock (fat : Bool) (blockCount blockSize : Nat) : Nat :=
  if fat then superBlockCount + getNeedBlock (sizeofFatEntry * blockCount) blockSize
  else superBlockCount

/-- `dir_init_superblock` in natural numbers: the number of directory blocks.
In a segment without room for file blocks it is one. -/
def directoryBlocks (fileStart blockCount blockSize : Nat) : Nat :=
  if fileStart ≤ blockCount then
    getNeedBlock (sizeofDirEntry * (blockCount - fileStart)) blockSize
  else 1

section

variable {fat : Bool} {blockCount blockSize : Nat}

theorem firstFileBlock_ge : superBlockCount ≤ firstFileBlock fat blockCount blockSize := by
  rw [firstFileBlock]
  split <;> omega

theorem firstFileBlock_le (header : 36 ≤ blockSize) :
    firstFileBlock fat blockCount blockSize ≤ superBlockCount + blockCount := by
  rw [firstFileBlock]
  split
  · have small : sizeofFatEntry ≤ blockSize := by
      simp only [sizeofFatEntry]
      omega
    have bound : getNeedBlock (sizeofFatEntry * blockCount) blockSize ≤ blockCount :=
      getNeedBlock_mul_le (by omega) small
    omega
  · omega

theorem firstFileBlock_behind_fat (header : 36 ≤ blockSize) (isFat : fat = true) :
    superBlockCount * blockSize + sizeofFatEntry * blockCount ≤
      firstFileBlock fat blockCount blockSize * blockSize := by
  rw [firstFileBlock, if_pos isFat, Nat.add_mul]
  exact Nat.add_le_add_left (getNeedBlock_ge (by omega)) _

theorem directoryBlocks_le {fileStart : Nat} (header : 36 ≤ blockSize)
    (some : 0 < blockCount) : directoryBlocks fileStart blockCount blockSize ≤ blockCount := by
  rw [directoryBlocks]
  split
  · have small : sizeofDirEntry ≤ blockSize := by
      simp only [sizeofDirEntry]
      omega
    have bound : getNeedBlock (sizeofDirEntry * (blockCount - fileStart)) blockSize ≤
        blockCount - fileStart := getNeedBlock_mul_le (by omega) small
    omega
  · exact some

theorem fatInitSuperblock_freeBlockNum (superBlock : SuperBlock)
    (count : superBlock.blockCount = blockCount) (size : superBlock.blockSize = blockSize) :
    (fatInitSuperblock superBlock).freeBlockNum =
      firstFileBlock superBlock.hasFat blockCount blockSize := by
  have rounded := getNeedBlock_int (sizeofFatEntry * blockCount) blockSize
  rw [fatInitSuperblock, firstFileBlock, count, size]
  rw [Nat.cast_mul, mul_comm] at rounded
  by_cases fat : superBlock.hasFat
  · simp only [fat, if_true]
    push_cast
    rw [← rounded]
    split <;> omega
  · simp only [fat, Bool.false_eq_true, if_false]

theorem dirInitSuperblock_dirBlockCount (superBlock : SuperBlock) {fileStart : Nat}
    (header : 36 ≤ blockSize) (tight : fileStart ≤ superBlockCount + blockCount)
    (count : superBlock.blockCount = blockCount) (size : superBlock.blockSize = blockSize)
    (free : superBlock.freeBlockNum = fileStart) :
    (dirInitSuperblock superBlock).dirBlockCount =
      directoryBlocks fileStart blockCount blockSize := by
  rw [dirInitSuperblock, directoryBlocks, count, size, free]
  by_cases ordered : fileStart ≤ blockCount
  · have rounded := getNeedBlock_int (sizeofDirEntry * (blockCount - fileStart)) blockSize
    push_cast [Nat.cast_sub ordered] at rounded
    rw [if_pos ordered]
    exact rounded
  · -- the negative size is below one block, so the quotient is zero
    simp only [superBlockCount] at tight
    obtain ⟨lack, same⟩ := Nat.exists_eq_add_of_lt (Nat.lt_of_not_le ordered)
    have dirSize : sizeofDirEntry * ((blockCount : Int) - fileStart) =
        -(sizeofDirEntry * (lack + 1) : Nat) := by
      rw [same]
      push_cast
      ring
    have small : sizeofDirEntry * (lack + 1) < blockSize := by
      simp only [sizeofDirEntry]
      omega
    have quotient : Int.tdiv (-(sizeofDirEntry * (lack + 1) : Nat)) blockSize = 0 := by
      rw [Int.neg_tdiv, Int.tdiv_eq_zero_of_lt (Int.natCast_nonneg _)
        (by exact_mod_cast small), neg_zero]
    have remainder : Int.tmod (-(sizeofDirEntry * (lack + 1) : Nat)) blockSize ≠ 0 := by
      rw [Int.tmod_def, quotient, mul_zero, sub_zero]
      simp [sizeofDirEntry]
      omega
    simp only [dirSize, if_neg remainder, quotient, if_neg ordered]
    rfl

end

theorem fatInitSuperblock_eq (superBlock : SuperBlock) :
    ∃ startFatBlock endFatBlock freeBlockNum, fatInitSuperblock superBlock =
      { superBlock with
        startFatBlock := startFatBlock
        endFatBlock := endFatBlock
        freeBlockNum := freeBlockNum } := by
  rw [fatInitSuperblock]
  split
  · exact ⟨_, _, _, rfl⟩
  · exact ⟨_, _, _, rfl⟩

theorem sfsBlockWrite_success {sfs sfs' : Segment} (reliable : sfs.io.Reliable)
    {start : Nat} {buf : List UInt8}
    (run : sfsBlockWrite sfs start buf = some (.success, sfs')) :
    sfs' = { sfs with mem := sfs.mem.write start buf } ∧ sizeofSuperBlock ≤ start := by
  rw [sfsBlockWrite] at run
  split at run
  case isFalse => cases run
  case isTrue within =>
    refine ⟨?_, by exact_mod_cast within.1⟩
    split at run
    · cases run
      rfl
    · simp only [reliable.write, if_true, List.take_length] at run
      cases run
      rfl

theorem sfsBlockWrite_reliable {sfs : Segment} (reliable : sfs.io.Reliable) (start : Int)
    (buf : List UInt8) :
    sfsBlockWrite sfs start buf = none ∨
      ∃ sfs', sfsBlockWrite sfs start buf = some (.success, sfs') := by
  rw [sfsBlockWrite]
  split
  case isFalse => exact .inl rfl
  case isTrue =>
    right
    split
    · exact ⟨_, rfl⟩
    · simp only [reliable.write, if_true]
      exact ⟨_, rfl⟩

theorem writeEmptyRootDirFrom_superBlock {sfs sfs' : Segment} {ret : Ret}
    {blockSize remaining : Nat} {block : Int}
    (run : writeEmptyRootDirFrom sfs blockSize remaining block = some (ret, sfs')) :
    sfs'.superBlock = sfs.superBlock := by
  induction remaining generalizing sfs block with
  | zero =>
    cases run
    rfl
  | succ remaining induction =>
    rw [writeEmptyRootDirFrom] at run
    split at run
    · cases run
    · next written =>
        exact (induction run).trans (sfsBlockWrite_superBlock written)
    · next written =>
        cases run
        exact sfsBlockWrite_superBlock written

theorem writeEmptyRootDirFrom_success {sfs sfs' : Segment} (reliable : sfs.io.Reliable)
    {blockSize remaining block : Nat}
    (run : writeEmptyRootDirFrom sfs blockSize remaining block = some (.success, sfs')) :
    sfs' = { sfs with
      mem := sfs.mem.write (block * blockSize) (List.replicate (remaining * blockSize) 0) } ∧
    (0 < remaining → sizeofSuperBlock ≤ block * blockSize) := by
  induction remaining generalizing sfs block with
  | zero =>
    cases run
    simp
  | succ remaining induction =>
    rw [writeEmptyRootDirFrom] at run
    rcases sfsBlockWrite_reliable reliable (block * blockSize)
        (List.replicate blockSize 0) with undefined | ⟨next, written⟩
    · rw [undefined] at run
      cases run
    · obtain ⟨same, behind⟩ := sfsBlockWrite_success reliable
        (show sfsBlockWrite sfs (block * blockSize : Nat) _ = _ by exact_mod_cast written)
      rw [written] at run
      have later : writeEmptyRootDirFrom next blockSize remaining (block + 1 : Nat) =
          some (.success, sfs') := by exact_mod_cast run
      obtain ⟨rfl, _⟩ := induction (same ▸ reliable) later
      subst same
      refine ⟨?_, fun _ => behind⟩
      have zeros : List.replicate ((remaining + 1) * blockSize) (0 : UInt8) =
          List.replicate blockSize 0 ++ List.replicate (remaining * blockSize) 0 := by
        rw [List.replicate_append_replicate, Nat.add_mul, Nat.one_mul, Nat.add_comm]
      rw [zeros, Mem.write_append, List.length_replicate, Nat.add_mul, Nat.one_mul]

/-- What `sfs_format` lays out. -/
structure LaidOut (option : UInt32) (size blockSize : Int) (geo : Geometry) : Prop where
  shaped : Shaped (formattedSuperBlock option size blockSize) geo
  fileStart : (formattedSuperBlock option size blockSize).freeBlockNum = geo.fileStart

theorem LaidOut.fat_eq {option : UInt32} {size blockSize : Int} {geo : Geometry}
    (laidOut : LaidOut option size blockSize geo) : geo.fat = (option &&& oFat != 0) := by
  obtain ⟨_, _, _, table⟩ := fatInitSuperblock_eq (blankSuperBlock option size blockSize)
  rw [← laidOut.shaped.hasFat]
  show (fatInitSuperblock _).hasFat = _
  rw [table]
  rfl

theorem LaidOut.unique {option : UInt32} {size blockSize : Int} {geo other : Geometry}
    (laidOut : LaidOut option size blockSize geo)
    (otherLaidOut : LaidOut option size blockSize other) : other = geo := by
  have fat : other.fat = geo.fat :=
    otherLaidOut.shaped.hasFat.symm.trans laidOut.shaped.hasFat
  have blockSize : other.blockSize = geo.blockSize := by
    exact_mod_cast otherLaidOut.shaped.blockSize.symm.trans laidOut.shaped.blockSize
  have fileStart : other.fileStart = geo.fileStart := by
    exact_mod_cast otherLaidOut.fileStart.symm.trans laidOut.fileStart
  have dirStart : other.dirStart = geo.dirStart := by
    exact_mod_cast otherLaidOut.shaped.startDirBlock.symm.trans laidOut.shaped.startDirBlock
  have dirCount : other.dirCount = geo.dirCount := by
    exact_mod_cast otherLaidOut.shaped.dirBlockCount.symm.trans laidOut.shaped.dirBlockCount
  have perBlock : other.perBlock = geo.perBlock := by
    exact_mod_cast otherLaidOut.shaped.entryCountInBlock.symm.trans
      laidOut.shaped.entryCountInBlock
  have blockCount : other.blockCount = geo.blockCount := by
    rw [← other.dir_end, ← geo.dir_end, dirStart, dirCount]
  cases geo
  cases other
  simp_all

theorem entryAt_zeros {geo : Geometry} (mem : Mem) {block index : Nat}
    (inDir : block < geo.dirCount) (inBlock : index < geo.perBlock) :
    geo.entryAt (mem.write (geo.dirStart * geo.blockSize)
      (List.replicate (geo.dirCount * geo.blockSize) 0)) block index = ⟨0, 0, 0, 0⟩ := by
  have inside := (geo.slotOffset_end block inBlock).trans (Geometry.dirBlock_end inDir)
  rw [← geo.dir_end, Nat.add_mul] at inside
  rw [Geometry.entryAt, Mem.read_write_replicate mem 0 (geo.slotOffset_ge block index) inside]
  decide

theorem Represents.blank_directory {sfs : Segment} {geo : Geometry} (mounted : Mounted sfs geo)
    (free : sfs.superBlock.freeBlockNum = geo.fileStart)
    (noFiles : sfs.superBlock.minFileId = 0 ∧ sfs.superBlock.maxFileId = 0 ∧
      sfs.superBlock.fileCount = 0)
    (zeros : ∀ block < geo.dirCount, ∀ index < geo.perBlock,
      geo.entryAt sfs.mem block index = ⟨0, 0, 0, 0⟩) :
    Represents sfs geo (fun _ => none) geo.fileStart (fun _ => []) := by
  have noIds : ∀ block < geo.dirCount, ∀ index < geo.perBlock,
      geo.ids sfs.mem block index = 0 := by
    intro block inDir index inBlock
    rw [Geometry.ids, zeros block inDir index inBlock]
  have noSlots : geo.usedSlots sfs.mem = [] := by
    rw [List.eq_nil_iff_forall_not_mem]
    intro slot member
    obtain ⟨inDir, inBlock, used⟩ := Geometry.mem_usedSlots.mp member
    exact used (noIds _ inDir _ inBlock)
  exact
    { mounted := mounted
      freeBlock := free
      free_ge := le_rfl
      free_le := .inl rfl
      placed := Probing.WellPlaced.empty.congr noIds
      blank := fun block inDir index inBlock _ => zeros block inDir index inBlock
      held := fun block inDir index inBlock used =>
        absurd (noIds block inDir index inBlock) used
      stored := fun _ _ stored => by cases stored
      unchained := fun _ _ => rfl
      apart := fun _ _ _ _ member => by cases member
      counted :=
        { bounds := fun _ stored => absurd rfl stored
          attained := by
            rintro ⟨_, stored⟩
            exact absurd rfl stored
          empty := fun _ => ⟨noFiles.1, noFiles.2.1⟩
          count := by
            rw [noSlots, noFiles.2.2]
            rfl } }

theorem sfsFormat_success {sfs sfs' : Segment} {option : UInt32} {size blockSize : Int}
    (run : sfsFormat sfs option size blockSize = some (.success, sfs')) :
    36 ≤ blockSize ∧ size.tmod blockSize = 0 ∧
      writeEmptyRootDir { sfs with superBlock := formattedSuperBlock option size blockSize } =
        some (.success, sfs') := by
  rw [sfsFormat] at run
  simp only [superBlockCount, sizeofSuperBlock] at run
  split_ifs at run with zero header large broken blocks
  · cases run
  · cases run
  · cases run
  · cases run
  have remainder := not_not.mp broken
  split at run
  case h_2 => cases run
  case h_1 =>
    refine ⟨?_, remainder, run⟩
    by_contra small
    have negative : blockSize < 0 := by omega
    have same : (formattedSuperBlock option size blockSize).blockSize = blockSize := by
      simp only [formattedSuperBlock, dirInitSuperblock, fatInitSuperblock]
      split <;> rfl
    rw [writeEmptyRootDir, if_pos (by rw [same]; exact negative)] at run
    cases run

theorem sfsFormat_superBlock {sfs sfs' : Segment} {option : UInt32} {size blockSize : Int}
    (run : sfsFormat sfs option size blockSize = some (.success, sfs')) :
    sfs'.superBlock = formattedSuperBlock option size blockSize := by
  obtain ⟨_, _, written⟩ := sfsFormat_success run
  rw [writeEmptyRootDir] at written
  split at written
  · cases written
  · exact writeEmptyRootDirFrom_superBlock written

theorem formattedSuperBlock_counters (option : UInt32) (size blockSize : Int) :
    (formattedSuperBlock option size blockSize).minFileId = 0 ∧
      (formattedSuperBlock option size blockSize).maxFileId = 0 ∧
      (formattedSuperBlock option size blockSize).fileCount = 0 := by
  obtain ⟨_, _, _, table⟩ := fatInitSuperblock_eq (blankSuperBlock option size blockSize)
  simp only [formattedSuperBlock, dirInitSuperblock, table]
  exact ⟨rfl, rfl, rfl⟩

section

variable {blockCount blockSize : Nat}

def formattedGeometry (fat : Bool) (header : 36 ≤ blockSize) (someBlocks : 0 < blockCount)
    (fits : blockCount * blockSize < 2 ^ 31)
    (behind : 0 < directoryBlocks (firstFileBlock fat blockCount blockSize) blockCount
        blockSize →
      sizeofSuperBlock ≤ (blockCount - directoryBlocks
        (firstFileBlock fat blockCount blockSize) blockCount blockSize) * blockSize) :
    Geometry where
  fat := fat
  blockSize := blockSize
  blockCount := blockCount
  fileStart := firstFileBlock fat blockCount blockSize
  dirStart := blockCount - directoryBlocks (firstFileBlock fat blockCount blockSize)
    blockCount blockSize
  dirCount := directoryBlocks (firstFileBlock fat blockCount blockSize) blockCount blockSize
  perBlock := blockSize / sizeofDirEntry
  header_fits := Nat.mul_le_mul_left superBlockCount header
  entries_fit := Nat.mul_div_le blockSize sizeofDirEntry
  dir_end := Nat.sub_add_cancel (directoryBlocks_le header someBlocks)
  dir_behind_header := behind
  files_behind_header := firstFileBlock_ge
  files_behind_fat := firstFileBlock_behind_fat header
  size_fits := fits

theorem formattedSuperBlock_layout (option : UInt32) {fileStart dirCount : Nat}
    (header : 36 ≤ blockSize) (someBlocks : 0 < blockCount)
    (first : firstFileBlock (option &&& oFat != 0) blockCount blockSize = fileStart)
    (directory : directoryBlocks fileStart blockCount blockSize = dirCount) :
    let formatted := formattedSuperBlock option (blockCount * blockSize : Nat) blockSize
    formatted.blockCount = blockCount ∧ formatted.blockSize = blockSize ∧
      formatted.freeBlockNum = fileStart ∧ formatted.dirBlockCount = dirCount ∧
      formatted.startDirBlock = (blockCount - dirCount : Nat) := by
  intro formatted
  have count : Int.tdiv (blockCount * blockSize : Nat) blockSize = blockCount := by
    push_cast
    exact Int.mul_tdiv_cancel _ (by omega)
  let blank := blankSuperBlock option (blockCount * blockSize : Nat) blockSize
  obtain ⟨_, _, _, table⟩ := fatInitSuperblock_eq blank
  have blocks : (fatInitSuperblock blank).blockCount = blockCount := by
    rw [table]
    exact count
  have size : (fatInitSuperblock blank).blockSize = blockSize := by
    rw [table]
    rfl
  have free : (fatInitSuperblock blank).freeBlockNum = fileStart :=
    (fatInitSuperblock_freeBlockNum blank count rfl).trans (congrArg _ first)
  have entries : (dirInitSuperblock (fatInitSuperblock blank)).dirBlockCount = dirCount := by
    rw [dirInitSuperblock_dirBlockCount _ header (first ▸ firstFileBlock_le header) blocks size
      free, directory]
  have dir_le : dirCount ≤ blockCount := directory ▸ directoryBlocks_le header someBlocks
  have begins : formatted.startDirBlock = (fatInitSuperblock blank).blockCount -
      (dirInitSuperblock (fatInitSuperblock blank)).dirBlockCount := rfl
  rw [entries, blocks] at begins
  refine ⟨blocks, size, free, entries, ?_⟩
  rw [begins, Nat.cast_sub dir_le]

theorem formattedGeometry_laidOut (option : UInt32) (header : 36 ≤ blockSize)
    (someBlocks : 0 < blockCount) (fits : blockCount * blockSize < 2 ^ 31) behind :
    LaidOut option (blockCount * blockSize : Nat) blockSize
      (formattedGeometry (option &&& oFat != 0) header someBlocks fits behind) := by
  obtain ⟨blocks, size, free, directory, begins⟩ :=
    formattedSuperBlock_layout option header someBlocks rfl rfl
  let geo := formattedGeometry (option &&& oFat != 0) header someBlocks fits behind
  let formatted := formattedSuperBlock option (blockCount * blockSize : Nat) blockSize
  obtain ⟨_, _, _, table⟩ :=
    fatInitSuperblock_eq (blankSuperBlock option (blockCount * blockSize : Nat) blockSize)
  refine ⟨⟨?_, size, ?_, free, ?_, begins, ?_, ?_, directory⟩, free⟩
  · show (fatInitSuperblock _).hasFat = _
    rw [table]
    rfl
  · show (fatInitSuperblock _).size = _
    rw [table]
    rfl
  · show formatted.startDirBlock - 1 = geo.dirStart - 1
    rw [begins]
    rfl
  · show formatted.blockCount - 1 = (geo.dirStart + geo.dirCount : Nat) - 1
    rw [blocks, geo.dir_end]
    rfl
  · show formatted.blockSize.tdiv sizeofDirEntry = geo.perBlock
    rw [size]
    exact Int.tdiv_eq_ediv_of_nonneg (Int.natCast_nonneg _)

end

theorem sfsFormat_represents {sfs sfs' : Segment} (reliable : sfs.io.Reliable)
    {option : UInt32} {size blockSize : Int} (positive : 0 < size) (fits : size < 2 ^ 31)
    (run : sfsFormat sfs option size blockSize = some (.success, sfs')) :
    ∃ geo, LaidOut option size blockSize geo ∧
      Represents sfs' geo (fun _ => none) geo.fileStart (fun _ => []) ∧
      sfs'.type = sfs.type ∧ sfs'.io = sfs.io := by
  obtain ⟨header, whole, written⟩ := sfsFormat_success run
  lift blockSize to Nat using by omega
  lift size to Nat using positive.le
  obtain ⟨blockCount, rfl⟩ : ∃ blockCount : Nat, size = blockCount * blockSize := by
    refine ⟨size / blockSize, ?_⟩
    have divides : blockSize ∣ size := by exact_mod_cast Int.dvd_of_tmod_eq_zero whole
    exact (Nat.div_mul_cancel divides).symm
  have header' : 36 ≤ blockSize := by exact_mod_cast header
  have someBlocks : 0 < blockCount := by
    rcases Nat.eq_zero_or_pos blockCount with zero | some
    · simp [zero] at positive
    · exact some
  obtain ⟨blocks, blockSize_eq, free, directory, begins⟩ :=
    formattedSuperBlock_layout option header' someBlocks rfl rfl
  rw [writeEmptyRootDir, blocks, blockSize_eq, begins, if_neg (by omega), Int.toNat_natCast]
    at written
  have dir_le : directoryBlocks (firstFileBlock (option &&& oFat != 0) blockCount blockSize)
      blockCount blockSize ≤ blockCount := directoryBlocks_le header' someBlocks
  have remaining : ((blockCount : Int) - (blockCount - directoryBlocks (firstFileBlock
      (option &&& oFat != 0) blockCount blockSize) blockCount blockSize : Nat)).toNat =
      directoryBlocks (firstFileBlock (option &&& oFat != 0) blockCount blockSize)
        blockCount blockSize := by
    omega
  rw [remaining] at written
  have reliable' : ({ sfs with
      superBlock := formattedSuperBlock option (blockCount * blockSize : Nat) blockSize } :
      Segment).io.Reliable := reliable
  obtain ⟨rfl, behind⟩ := writeEmptyRootDirFrom_success reliable' written
  have laidOut := formattedGeometry_laidOut option header' someBlocks
    (by exact_mod_cast fits) behind
  refine ⟨_, laidOut, ?_, rfl, rfl⟩
  exact .blank_directory ⟨laidOut.shaped, reliable⟩ laidOut.fileStart
    (formattedSuperBlock_counters option _ _)
    fun block inDir index inBlock => entryAt_zeros sfs.mem inDir inBlock

end Wisebot.Sfs
