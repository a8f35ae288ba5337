import Wisebot.Sfs.Format

namespace Wisebot.Sfs

open Wisebot.Lib

/-! Where the areas of a formatted segment lie. -/

/-- The first and the last block of each area, in the order of the segment. -/
def areas (superBlock : SuperBlock) : List (Int × Int) :=
  (0, superBlockCount - 1) ::
    ((if superBlock.hasFat then [(superBlock.startFatBlock, superBlock.endFatBlock)] else []) ++
      [(superBlock.startFileBlock, superBlock.endFileBlock),
        (superBlock.startDirBlock, superBlock.endDirBlock)])

structure AreasWellFormed (superBlock : SuperBlock) : Prop where
  ordered : (areas superBlock).Pairwise fun area next => area.2 < next.1
  inside : ∀ area ∈ areas superBlock, 0 ≤ area.1 ∧ area.2 < superBlock.blockCount
  fatEntries : superBlock.hasFat = true → ∀ num : Nat, (num : Int) < superBlock.blockCount →
    superBlock.startFatBlock * superBlock.blockSize ≤ fatEntryOffset superBlock num ∧
      fatEntryOffset superBlock num + sizeofFatEntry ≤
        (superBlock.endFatBlock + 1) * superBlock.blockSize
  directory : 1 ≤ superBlock.dirBlockCount
  entries : 1 ≤ superBlock.entryCountInBlock
  cleared : ∀ block, superBlock.startDirBlock ≤ block → block < superBlock.blockCount →
    (sizeofSuperBlock : Int) ≤ block * superBlock.blockSize

/-- A block is left behind the super block and the allocation table. -/
def BlockBehindFat (option : UInt32) (size blockSize : Int) : Prop :=
  (firstFileBlock (option &&& oFat != 0) (size.tdiv blockSize).toNat blockSize.toNat : Int) <
    size.tdiv blockSize

/-- `sfs_format` does not return `FAIL`. -/
def Accepts (sfs : Segment) (option : UInt32) (size blockSize : Int) : Prop :=
  ∀ left, sfsFormat sfs option size blockSize ≠ some (.fail, left)

theorem Accepts.checked {sfs : Segment} {option : UInt32} {size blockSize : Int}
    (accepted : Accepts sfs option size blockSize) :
    blockSize = 0 ∨ 36 ≤ blockSize ∧ size.tmod blockSize = 0 := by
  by_contra refused
  rw [not_or, not_and_or] at refused
  obtain ⟨nonzero, refused⟩ := refused
  have same : (formattedSuperBlock option size blockSize).blockSize = blockSize := by
    simp only [formattedSuperBlock, dirInitSuperblock, fatInitSuperblock]
    split <;> rfl
  rw [Accepts, sfsFormat, if_neg nonzero] at accepted
  simp only [superBlockCount, sizeofSuperBlock] at accepted
  split_ifs at accepted with header large broken blocks
  · exact accepted _ rfl
  · exact accepted _ rfl
  · exact accepted _ rfl
  · exact accepted _ rfl
  · have negative : blockSize < 0 := by
      rcases refused with small | broken'
      · omega
      · exact absurd (not_not.mp broken) broken'
    split at accepted
    · rw [writeEmptyRootDir, if_pos (by rw [same]; exact negative)] at accepted
      exact accepted _ rfl
    · exact accepted _ rfl

theorem fatInitSuperblock_area {superBlock : SuperBlock}
    (fat : (fatInitSuperblock superBlock).hasFat = true) :
    (fatInitSuperblock superBlock).startFatBlock = superBlockCount ∧
      (fatInitSuperblock superBlock).endFatBlock =
        (fatInitSuperblock superBlock).freeBlockNum - 1 := by
  obtain ⟨_, _, _, table⟩ := fatInitSuperblock_eq superBlock
  have option : superBlock.hasFat = true := by
    rw [table] at fat
    exact fat
  simp only [fatInitSuperblock, option, if_true, add_sub_cancel_right, and_self]

section

variable {blockCount blockSize : Nat} {option : UInt32}

theorem BlockBehindFat.iff (header : 36 ≤ blockSize) :
    BlockBehindFat option (blockCount * blockSize : Nat) blockSize ↔
      firstFileBlock (option &&& oFat != 0) blockCount blockSize < blockCount := by
  have count : Int.tdiv (blockCount * blockSize : Nat) blockSize = blockCount := by
    push_cast
    exact Int.mul_tdiv_cancel _ (by omega)
  rw [BlockBehindFat, count, Int.toNat_natCast, Int.toNat_natCast, Nat.cast_lt]

theorem directoryBlocks_bounds {fileStart : Nat} (header : 36 ≤ blockSize)
    (room : fileStart < blockCount) :
    0 < directoryBlocks fileStart blockCount blockSize ∧
      directoryBlocks fileStart blockCount blockSize ≤ blockCount - fileStart := by
  rw [directoryBlocks, if_pos room.le]
  have some : 0 < sizeofDirEntry * (blockCount - fileStart) := by
    simp only [sizeofDirEntry]
    omega
  refine ⟨(getNeedBlock_bounds (by omega) some).1, ?_⟩
  apply getNeedBlock_mul_le (by omega)
  simp only [sizeofDirEntry]
  omega

theorem formattedSuperBlock_hasFat (option : UInt32) (size blockSize : Int) :
    (formattedSuperBlock option size blockSize).hasFat = (option &&& oFat != 0) := by
  obtain ⟨_, _, _, same⟩ := fatInitSuperblock_eq (blankSuperBlock option size blockSize)
  show (fatInitSuperblock _).hasFat = _
  rw [same]
  rfl

theorem formattedSuperBlock_areas (option : UInt32) (header : 36 ≤ blockSize)
    (someBlocks : 0 < blockCount) {fileStart dirCount : Nat}
    (first : firstFileBlock (option &&& oFat != 0) blockCount blockSize = fileStart)
    (directory : directoryBlocks fileStart blockCount blockSize = dirCount) :
    areas (formattedSuperBlock option (blockCount * blockSize : Nat) blockSize) =
      (0, 1) :: ((if option &&& oFat != 0 then [(2, (fileStart : Int) - 1)] else []) ++
        [((fileStart : Int), ((blockCount - dirCount : Nat) : Int) - 1),
          (((blockCount - dirCount : Nat) : Int), (blockCount : Int) - 1)]) := by
  obtain ⟨blocks, _, free, _, begins⟩ :=
    formattedSuperBlock_layout option header someBlocks first directory
  let formatted := formattedSuperBlock option (blockCount * blockSize : Nat) blockSize
  have fat : formatted.hasFat = (option &&& oFat != 0) := formattedSuperBlock_hasFat _ _ _
  have table : (if formatted.hasFat then [(formatted.startFatBlock, formatted.endFatBlock)]
      else []) = if option &&& oFat != 0 then [(2, (fileStart : Int) - 1)] else [] := by
    rw [fat]
    split
    case isTrue isFat =>
      obtain ⟨starts, ends⟩ := fatInitSuperblock_area (fat.trans isFat)
      rw [← free]
      exact congrArg (fun area => [area]) (Prod.ext starts ends)
    case isFalse => rfl
  show (0, 1) :: ((if formatted.hasFat then [(formatted.startFatBlock, formatted.endFatBlock)]
      else []) ++ [(formatted.freeBlockNum, formatted.startDirBlock - 1),
        (formatted.startDirBlock, formatted.blockCount - 1)]) = _
  rw [table, free, begins, blocks]

/-- The entry of a block lies in the table, which may cut it into two of its blocks. -/
theorem formattedSuperBlock_fatEntries (header : 36 ≤ blockSize) (someBlocks : 0 < blockCount)
    (fat : option &&& oFat != 0) {num : Nat} (bound : num < blockCount) :
    let formatted := formattedSuperBlock option (blockCount * blockSize : Nat) blockSize
    formatted.startFatBlock * formatted.blockSize ≤ fatEntryOffset formatted num ∧
      fatEntryOffset formatted num + sizeofFatEntry ≤
        (formatted.endFatBlock + 1) * formatted.blockSize := by
  intro formatted
  obtain ⟨_, size, free, _⟩ := formattedSuperBlock_layout option header someBlocks rfl rfl
  have isFat : formatted.hasFat = true := (formattedSuperBlock_hasFat _ _ _).trans fat
  obtain ⟨starts, ends⟩ := fatInitSuperblock_area isFat
  have first : formatted.startFatBlock = superBlockCount := starts
  have last : formatted.endFatBlock + 1 = firstFileBlock (option &&& oFat != 0) blockCount
      blockSize := by
    rw [← free]
    exact add_eq_of_eq_sub ends
  have place : fatEntryOffset formatted num =
      superBlockCount * blockSize + num * sizeofFatEntry := by
    have divide := Int.tdiv_mul_add_tmod (num * sizeofFatEntry : Int) blockSize
    simp only [fatEntryOffset, formatted, size, Int.add_mul]
    omega
  have behind : superBlockCount * blockSize + sizeofFatEntry * blockCount ≤
      firstFileBlock (option &&& oFat != 0) blockCount blockSize * blockSize :=
    firstFileBlock_behind_fat header fat
  have behind' : (superBlockCount * blockSize + sizeofFatEntry * blockCount : Int) ≤
      firstFileBlock (option &&& oFat != 0) blockCount blockSize * blockSize := by
    exact_mod_cast behind
  rw [place, first, last, show formatted.blockSize = blockSize from size]
  simp only [sizeofFatEntry] at *
  omega

theorem areasWellFormed_of_room (header : 36 ≤ blockSize)
    (room : firstFileBlock (option &&& oFat != 0) blockCount blockSize < blockCount) :
    AreasWellFormed (formattedSuperBlock option (blockCount * blockSize : Nat) blockSize) := by
  have someBlocks : 0 < blockCount := by omega
  obtain ⟨blocks, size, _, directory, begins⟩ :=
    formattedSuperBlock_layout option header someBlocks rfl rfl
  have described := formattedSuperBlock_areas option header someBlocks rfl rfl
  have files : superBlockCount ≤ firstFileBlock (option &&& oFat != 0) blockCount blockSize :=
    firstFileBlock_ge
  obtain ⟨some, small⟩ := directoryBlocks_bounds header room
  simp only [superBlockCount] at files
  refine ⟨?_, ?_, ?_, ?_, ?_, ?_⟩
  · rw [described]
    split
    · simp only [List.cons_append, List.nil_append, List.pairwise_cons, List.mem_cons,
        forall_eq_or_imp, List.not_mem_nil, false_implies, implies_true, and_true,
        List.Pairwise.nil]
      omega
    · simp only [List.nil_append, List.pairwise_cons, List.mem_cons, forall_eq_or_imp,
        List.not_mem_nil, false_implies, implies_true, and_true, List.Pairwise.nil]
      omega
  · rw [described, blocks]
    split
    · simp only [List.cons_append, List.nil_append, List.mem_cons, forall_eq_or_imp,
        List.not_mem_nil, false_implies, implies_true, and_true]
      omega
    · simp only [List.nil_append, List.mem_cons, forall_eq_or_imp, List.not_mem_nil,
        false_implies, implies_true, and_true]
      omega
  · intro fat num bound
    rw [blocks] at bound
    exact formattedSuperBlock_fatEntries header someBlocks
      ((formattedSuperBlock_hasFat _ _ _).symm.trans fat) (by exact_mod_cast bound)
  · rw [directory]
    exact_mod_cast some
  · show (1 : Int) ≤ Int.tdiv (formattedSuperBlock _ _ _).blockSize sizeofDirEntry
    rw [size, Int.tdiv_eq_ediv_of_nonneg (Int.natCast_nonneg _)]
    simp only [sizeofDirEntry]
    omega
  · intro block starts _
    rw [begins] at starts
    rw [size]
    have behind : 2 * (blockSize : Int) ≤ block * blockSize :=
      mul_le_mul_of_nonneg_right (by omega) (Int.natCast_nonneg _)
    simp only [sizeofSuperBlock]
    omega

theorem room_of_areasWellFormed (header : 36 ≤ blockSize) (someBlocks : 0 < blockCount)
    (formed : AreasWellFormed
      (formattedSuperBlock option (blockCount * blockSize : Nat) blockSize)) :
    firstFileBlock (option &&& oFat != 0) blockCount blockSize < blockCount := by
  obtain ⟨_, _, _, directory, _⟩ :=
    formattedSuperBlock_layout option header someBlocks rfl rfl
  have described := formattedSuperBlock_areas option header someBlocks rfl rfl
  by_contra tight
  rcases Nat.lt_or_eq_of_le (Nat.le_of_not_lt tight) with beyond | exact
  · have one : directoryBlocks (firstFileBlock (option &&& oFat != 0) blockCount blockSize)
        blockCount blockSize = 1 := by
      rw [directoryBlocks, if_neg (by omega)]
    have ordered := formed.ordered
    rw [described, one] at ordered
    split at ordered
    · simp only [List.cons_append, List.nil_append, List.pairwise_cons, List.mem_cons,
        forall_eq_or_imp] at ordered
      omega
    · next noFat =>
      simp only [List.nil_append, List.pairwise_cons, List.mem_cons, forall_eq_or_imp]
        at ordered
      rw [firstFileBlock, if_neg noFat, superBlockCount] at beyond
      omega
  · have none : directoryBlocks (firstFileBlock (option &&& oFat != 0) blockCount blockSize)
        blockCount blockSize = 0 := by
      rw [← exact, directoryBlocks, if_pos le_rfl, Nat.sub_self]
      simp [getNeedBlock]
    have some := formed.directory
    rw [directory, none] at some
    omega

end

theorem formattedSuperBlock_blockCount (option : UInt32) (size blockSize : Int) :
    (formattedSuperBlock option size blockSize).blockCount = size.tdiv blockSize := by
  obtain ⟨_, _, _, same⟩ := fatInitSuperblock_eq (blankSuperBlock option size blockSize)
  show (fatInitSuperblock _).blockCount = _
  rw [same]
  rfl

theorem AreasWellFormed.some_blocks {option : UInt32} {size blockSize : Int}
    (formed : AreasWellFormed (formattedSuperBlock option size blockSize)) :
    0 < size.tdiv blockSize := by
  have inside := (formed.inside _ List.mem_cons_self).2
  rw [formattedSuperBlock_blockCount] at inside
  simp only [superBlockCount] at inside
  omega

theorem BlockBehindFat.some_blocks {option : UInt32} {size blockSize : Int}
    (behind : BlockBehindFat option size blockSize) : 0 < size.tdiv blockSize :=
  lt_of_le_of_lt (Int.natCast_nonneg _) behind

/-- `sfs_format` checks the block size, and not whether the blocks suffice for the areas. -/
theorem sfsFormat_areas_wellFormed_iff (sfs : Segment) (option : UInt32) (size blockSize : Int)
    (accepted : Accepts sfs option size blockSize) :
    AreasWellFormed (formattedSuperBlock option size blockSize) ↔
      BlockBehindFat option size blockSize := by
  by_cases someBlocks : 0 < size.tdiv blockSize
  case neg =>
    exact ⟨fun formed => absurd formed.some_blocks someBlocks,
      fun behind => absurd behind.some_blocks someBlocks⟩
  rcases accepted.checked with rfl | ⟨header, whole⟩
  case inl =>
    rw [Int.tdiv_zero] at someBlocks
    exact absurd someBlocks (lt_irrefl 0)
  have positive : 0 < size := by
    by_contra negative
    have divided : 0 ≤ (-size).tdiv blockSize := Int.tdiv_nonneg (by omega) (by omega)
    rw [Int.neg_tdiv] at divided
    omega
  lift blockSize to Nat using by omega
  lift size to Nat using positive.le
  obtain ⟨blockCount, rfl⟩ : ∃ blockCount : Nat, size = blockCount * blockSize := by
    refine ⟨size / blockSize, ?_⟩
    have divides : blockSize ∣ size := by exact_mod_cast Int.dvd_of_tmod_eq_zero whole
    exact (Nat.div_mul_cancel divides).symm
  have header' : 36 ≤ blockSize := by exact_mod_cast header
  have someBlocks' : 0 < blockCount := by
    rcases Nat.eq_zero_or_pos blockCount with zero | some
    · simp [zero] at positive
    · exact some
  rw [BlockBehindFat.iff header']
  exact ⟨room_of_areasWellFormed header' someBlocks', areasWellFormed_of_room header'⟩

def unloaded : Segment :=
  ⟨.unload, ⟨fun _ size => size, fun _ size => size⟩, blankSuperBlock 0 0 0, fun _ => 0⟩

theorem accepts_of_success {sfs : Segment} {option : UInt32} {size blockSize : Int}
    (success : (sfsFormat sfs option size blockSize).map Prod.fst = some .success) :
    Accepts sfs option size blockSize := by
  intro left failed
  rw [failed] at success
  cases success

theorem sfsFormat_areas_wellFormed_iff_ten_blocks :
    BlockBehindFat oFat 1280 128 ∧ AreasWellFormed (formattedSuperBlock oFat 1280 128) := by
  have accepted : Accepts unloaded oFat 1280 128 := accepts_of_success (by decide +kernel)
  have behind : BlockBehindFat oFat 1280 128 := by
    unfold BlockBehindFat
    decide
  exact ⟨behind, (sfsFormat_areas_wellFormed_iff unloaded oFat 1280 128 accepted).mpr behind⟩

/-- Two blocks hold the super block only: `sfs_format` succeeds, and the directory has
no block. -/
theorem two_blocks_without_directory :
    ¬ ∀ (sfs : Segment) (option : UInt32) (size blockSize : Int),
      Accepts sfs option size blockSize →
        AreasWellFormed (formattedSuperBlock option size blockSize) := by
  intro claim
  have formed := claim unloaded oHashRootDir 256 128 (accepts_of_success (by decide +kernel))
  exact absurd formed.directory (by decide)

end Wisebot.Sfs
