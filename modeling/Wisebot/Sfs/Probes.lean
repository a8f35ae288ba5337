import Wisebot.Sfs.Refinement

namespace Wisebot.Sfs

open Wisebot.Lib

/-! The directory blocks that `dir_find_entry` accesses. A block that is written
was read before, so the blocks that are read are all of them. -/

/-- What the read of a directory block delivers, for each block index. -/
abbrev DirContent := Int → Except Failure (List UInt8)

def dirVisitedFrom (superBlock : SuperBlock) (content : DirContent) (fileId : Nat) :
    List Nat → Int → List Int
  | retries, blockIdx =>
    let block := superBlock.startDirBlock + blockIdx
    match content block with
    | .error _ => [block]
    | .ok bytes =>
      match scanBlock bytes fileId superBlock.entryCountInBlock.toNat 0 with
      | .empty _ => [block]
      | .found _ _ => [block]
      | .exhausted =>
        match retries with
        | [] => [block]
        | step :: retries =>
          block :: dirVisitedFrom superBlock content fileId retries
            (nextBlockIdx superBlock blockIdx step)

/-- The blocks that are accessed for a file id; none when the hash divides by zero. -/
def dirVisited (superBlock : SuperBlock) (content : DirContent) (fileId : Nat) :
    Option (List Int) :=
  if superBlock.dirBlockCount = 0 then none
  else
    some (dirVisitedFrom superBlock content fileId nextBlock
      (getBlockIdx fileId superBlock.dirBlockCount))

def SuperBlock.InDirectory (superBlock : SuperBlock) (block : Int) : Prop :=
  superBlock.startDirBlock ≤ block ∧ block ≤ superBlock.endDirBlock

def SearchInside (superBlock : SuperBlock) (content : DirContent) (fileId : Nat) : Prop :=
  ∃ visited, dirVisited superBlock content fileId = some visited ∧
    ∀ block ∈ visited, superBlock.InDirectory block

section

variable {superBlock : SuperBlock} {content : DirContent} {fileId : Nat}

theorem first_mem_dirVisitedFrom (retries : List Nat) (blockIdx : Int) :
    superBlock.startDirBlock + blockIdx ∈
      dirVisitedFrom superBlock content fileId retries blockIdx := by
  unfold dirVisitedFrom
  dsimp only
  split
  · exact List.mem_cons_self
  · split
    · exact List.mem_cons_self
    · exact List.mem_cons_self
    · split <;> exact List.mem_cons_self

theorem dirVisitedFrom_subset (retries : List Nat) (blockIdx : Int) :
    ∀ block ∈ dirVisitedFrom superBlock content fileId retries blockIdx,
      ∃ probe ∈ dirProbesFrom superBlock retries blockIdx,
        block = superBlock.startDirBlock + probe := by
  induction retries generalizing blockIdx with
  | nil =>
    intro block member
    rw [dirVisitedFrom] at member
    refine ⟨blockIdx, List.mem_cons_self, ?_⟩
    split at member
    · exact List.mem_singleton.mp member
    · split at member <;> exact List.mem_singleton.mp member
  | cons step retries induction =>
    intro block member
    rw [dirVisitedFrom] at member
    split at member
    · exact ⟨blockIdx, List.mem_cons_self, List.mem_singleton.mp member⟩
    · split at member
      · exact ⟨blockIdx, List.mem_cons_self, List.mem_singleton.mp member⟩
      · exact ⟨blockIdx, List.mem_cons_self, List.mem_singleton.mp member⟩
      · rcases List.mem_cons.mp member with here | later
        · exact ⟨blockIdx, List.mem_cons_self, here⟩
        · obtain ⟨probe, isProbe, same⟩ := induction _ block later
          exact ⟨probe, List.mem_cons_of_mem _ isProbe, same⟩

theorem dirVisitedFrom_full {bytes : List UInt8} (full : content = fun _ => .ok bytes)
    (exhausted : scanBlock bytes fileId superBlock.entryCountInBlock.toNat 0 = .exhausted)
    (retries : List Nat) (blockIdx : Int) :
    dirVisitedFrom superBlock content fileId retries blockIdx =
      (dirProbesFrom superBlock retries blockIdx).map (superBlock.startDirBlock + ·) := by
  induction retries generalizing blockIdx with
  | nil => simp [dirVisitedFrom, dirProbesFrom, full, exhausted]
  | cons step retries induction =>
    rw [dirVisitedFrom, induction]
    simp [dirProbesFrom, full, exhausted]

theorem entryInBlock_ones {blockSize index : Nat} (fits : sizeofDirEntry * (index + 1) ≤ blockSize) :
    (entryInBlock (List.replicate blockSize 1) index).id = 16843009 := by
  have taken : ((List.replicate blockSize (1 : UInt8)).drop (sizeofDirEntry * index)).take
      sizeofDirEntry = List.replicate sizeofDirEntry 1 := by
    rw [List.drop_replicate, List.take_replicate]
    congr 1
    rw [Nat.mul_add] at fits
    omega
  rw [entryInBlock, taken]
  decide

theorem scanBlock_ones {blockSize : Nat} (other : fileId ≠ 16843009) {remaining index : Nat}
    (fits : sizeofDirEntry * (index + remaining) ≤ blockSize) :
    scanBlock (List.replicate blockSize 1) fileId remaining index = .exhausted := by
  induction remaining generalizing index with
  | zero => rfl
  | succ remaining induction =>
    have isFull : (entryInBlock (List.replicate blockSize 1) index).id = 16843009 :=
      entryInBlock_ones ((Nat.mul_le_mul_left _ (by omega)).trans fits)
    rw [scanBlock]
    simp only [isFull]
    rw [if_neg (by decide), if_neg (Ne.symm other), induction]
    rwa [Nat.add_assoc, Nat.add_comm 1]

end

/-! ### Directories of `dirCount` blocks -/

section

variable {superBlock : SuperBlock} {dirCount : Nat}

theorem nextBlockIdx_natCast
    (last : superBlock.endDirBlock = superBlock.startDirBlock + dirCount - 1) (block step : Nat) :
    nextBlockIdx superBlock block step = (nextProbe dirCount block step : Nat) := by
  rw [nextBlockIdx, nextProbe, last]
  split <;> split <;> omega

theorem dirProbesFrom_natCast
    (last : superBlock.endDirBlock = superBlock.startDirBlock + dirCount - 1)
    (retries : List Nat) (block : Nat) :
    dirProbesFrom superBlock retries block = (probesFrom dirCount retries block).map Nat.cast := by
  induction retries generalizing block with
  | nil => rfl
  | cons step retries induction =>
    rw [dirProbesFrom, probesFrom, List.map_cons, nextBlockIdx_natCast last, induction]

theorem getBlockIdx_natCast (fileId dirCount : Nat) :
    getBlockIdx fileId dirCount = (fileId % dirCount : Nat) := by
  rw [getBlockIdx, hashFunc]
  exact_mod_cast Int.tmod_eq_emod_of_nonneg (Int.natCast_nonneg fileId)

/-- A directory that is shorter than the longest step has a file id with a probe behind it. -/
theorem exists_probe_outside {dirCount : Nat} (some_ : 0 < dirCount) (short : dirCount < 41) :
    ∃ fileId, 1 ≤ fileId ∧ fileId ≤ 41 ∧
      ∃ probe ∈ probesFrom dirCount nextBlock (fileId % dirCount), dirCount ≤ probe := by
  have all : ∀ count < 41, 0 < count → ∃ fileId < 42, 1 ≤ fileId ∧
      (probesFrom count nextBlock (fileId % count)).any (count ≤ ·) = true := by
    decide +kernel
  obtain ⟨fileId, bound, positive, probes⟩ := all dirCount short some_
  obtain ⟨probe, member, outside⟩ := List.any_eq_true.mp probes
  exact ⟨fileId, positive, by omega, probe, member, of_decide_eq_true outside⟩

theorem searchInside_of_large
    (last : superBlock.endDirBlock = superBlock.startDirBlock + dirCount - 1)
    (count : superBlock.dirBlockCount = dirCount) (large : 41 ≤ dirCount) (content : DirContent)
    (fileId : Nat) : SearchInside superBlock content fileId := by
  refine ⟨_, if_neg (by omega), ?_⟩
  intro block member
  obtain ⟨probe, isProbe, rfl⟩ := dirVisitedFrom_subset _ _ block member
  rw [count, getBlockIdx_natCast, dirProbesFrom_natCast last] at isProbe
  obtain ⟨place, isPlace, rfl⟩ := List.mem_map.mp isProbe
  have short : ∀ step ∈ nextBlock, step ≤ dirCount := by
    intro step isStep
    have bound : ∀ step ∈ nextBlock, step ≤ 41 := by decide
    exact (bound step isStep).trans large
  have inDir := probesFrom_lt short (Nat.mod_lt fileId (by omega)) place isPlace
  rw [SuperBlock.InDirectory, last]
  omega

theorem not_searchInside_of_small
    (last : superBlock.endDirBlock = superBlock.startDirBlock + dirCount - 1)
    (count : superBlock.dirBlockCount = dirCount) (some_ : 0 < dirCount) (small : dirCount < 41)
    {blockSize : Nat} (fits : sizeofDirEntry * superBlock.entryCountInBlock.toNat ≤ blockSize) :
    ∃ content fileId, 1 ≤ fileId ∧ fileId < 2 ^ 31 ∧ ¬ SearchInside superBlock content fileId := by
  obtain ⟨fileId, positive, bound, probe, isProbe, outside⟩ := exists_probe_outside some_ small
  refine ⟨fun _ => .ok (List.replicate blockSize 1), fileId, positive, by omega, ?_⟩
  rintro ⟨visited, isVisited, inside⟩
  have exhausted : scanBlock (List.replicate blockSize 1) fileId
      superBlock.entryCountInBlock.toNat 0 = .exhausted :=
    scanBlock_ones (by omega) (by rwa [Nat.zero_add])
  rw [dirVisited, if_neg (by omega), dirVisitedFrom_full rfl exhausted, count,
    getBlockIdx_natCast, dirProbesFrom_natCast last] at isVisited
  obtain rfl := Option.some.inj isVisited
  obtain ⟨-, before⟩ := inside (superBlock.startDirBlock + (probe : Int))
    (List.mem_map_of_mem (List.mem_map_of_mem isProbe))
  rw [last] at before
  omega

end

def blockContent (sfs : Segment) : DirContent := fun block =>
  (sfsBlockRead sfs (block * sfs.superBlock.blockSize) sfs.superBlock.blockSize.toNat).getD
    (.error .fail)

namespace Mounted

variable {sfs : Segment} {geo : Geometry}

end Mounted

/-- Every search in a formatted segment stays in the directory, whatever stands
there, just when the directory has at least as many blocks as the longest step. -/
theorem sfsFormat_searches_inside_iff {sfs formatted : Segment} {option : UInt32}
    {size blockSize : Int}
    (run : sfsFormat sfs option size blockSize = some (.success, formatted)) :
    (∀ content fileId, 1 ≤ fileId → fileId < 2 ^ 31 →
      SearchInside formatted.superBlock content fileId) ↔
        41 ≤ formatted.superBlock.dirBlockCount := by
  obtain ⟨header, -, -⟩ := sfsFormat_success run
  have isFormatted := sfsFormat_superBlock run
  have last : formatted.superBlock.endDirBlock =
      formatted.superBlock.startDirBlock + formatted.superBlock.dirBlockCount - 1 := by
    have start : (formattedSuperBlock option size blockSize).startDirBlock =
        (formattedSuperBlock option size blockSize).blockCount -
          (formattedSuperBlock option size blockSize).dirBlockCount := rfl
    have lastBlock : (formattedSuperBlock option size blockSize).endDirBlock =
        (formattedSuperBlock option size blockSize).blockCount - 1 := rfl
    rw [isFormatted]
    omega
  have entries : formatted.superBlock.entryCountInBlock = blockSize.tdiv sizeofDirEntry := by
    obtain ⟨_, _, _, table⟩ := fatInitSuperblock_eq (blankSuperBlock option size blockSize)
    rw [isFormatted]
    show (fatInitSuperblock _).blockSize.tdiv _ = _
    rw [table]
    rfl
  generalize formatted.superBlock = superBlock at last entries ⊢
  constructor
  · intro inside
    by_contra small
    rcases lt_trichotomy superBlock.dirBlockCount 0 with negative | zero | positive
    · obtain ⟨visited, isVisited, inDirectory⟩ := inside (fun _ => .error .fail) 1 le_rfl (by decide)
      rw [dirVisited, if_neg negative.ne] at isVisited
      obtain rfl := Option.some.inj isVisited
      obtain ⟨before, behind⟩ := inDirectory (superBlock.startDirBlock +
        getBlockIdx 1 superBlock.dirBlockCount) (first_mem_dirVisitedFrom _ _)
      omega
    · obtain ⟨visited, isVisited, -⟩ := inside (fun _ => .error .fail) 1 le_rfl (by decide)
      rw [dirVisited, if_pos zero] at isVisited
      cases isVisited
    · obtain ⟨dirCount, isCount⟩ := Int.eq_ofNat_of_zero_le positive.le
      lift blockSize to Nat using by omega
      have fits : sizeofDirEntry * superBlock.entryCountInBlock.toNat ≤ blockSize := by
        rw [entries, Int.tdiv_eq_ediv_of_nonneg (Int.natCast_nonneg _)]
        have divided := Nat.mul_div_le blockSize sizeofDirEntry
        exact_mod_cast divided
      rw [isCount] at last
      obtain ⟨content, fileId, isId, bound, outside⟩ :=
        not_searchInside_of_small last isCount (by omega) (by omega) fits
      exact outside (inside content fileId isId bound)
  · intro large content fileId _ _
    obtain ⟨dirCount, isCount⟩ := Int.eq_ofNat_of_zero_le (show 0 ≤ superBlock.dirBlockCount by omega)
    rw [isCount] at last
    exact searchInside_of_large last isCount (by omega) content fileId

/-- A directory of 44 blocks. -/
theorem sfsFormat_searches_inside_large : ∃ formatted,
    sfsFormat newSegment oFat 4680 36 = some (.success, formatted) ∧
      ∀ content fileId, 1 ≤ fileId → fileId < 2 ^ 31 →
        SearchInside formatted.superBlock content fileId := by
  obtain ⟨formatted, run⟩ : ∃ formatted,
      sfsFormat newSegment oFat 4680 36 = some (.success, formatted) := ⟨_, rfl⟩
  refine ⟨formatted, run, (sfsFormat_searches_inside_iff run).mpr ?_⟩
  rw [sfsFormat_superBlock run]
  decide

/-- A directory of two blocks, both full of other files. -/
theorem sfsFormat_search_leaves : ∃ formatted,
    sfsFormat newSegment 0 640 64 = some (.success, formatted) ∧
      dirVisited formatted.superBlock (fun _ => .ok (List.replicate 64 1)) 1 =
        some [9, 14, 25, 40, 61, 100] ∧
      formatted.superBlock.endDirBlock = 9 ∧
      ¬ ∀ content fileId, 1 ≤ fileId → fileId < 2 ^ 31 →
        SearchInside formatted.superBlock content fileId := by
  obtain ⟨formatted, run⟩ : ∃ formatted,
      sfsFormat newSegment 0 640 64 = some (.success, formatted) := ⟨_, rfl⟩
  have isFormatted := sfsFormat_superBlock run
  have visited : dirVisited formatted.superBlock (fun _ => .ok (List.replicate 64 1)) 1 =
      some [9, 14, 25, 40, 61, 100] := by
    rw [isFormatted]
    decide +kernel
  have last : formatted.superBlock.endDirBlock = 9 := by
    rw [isFormatted]
    rfl
  refine ⟨formatted, run, visited, last, ?_⟩
  intro inside
  obtain ⟨blocks, isVisited, inDirectory⟩ :=
    inside (fun _ => .ok (List.replicate 64 1)) 1 le_rfl (by decide)
  rw [visited] at isVisited
  obtain rfl := Option.some.inj isVisited
  obtain ⟨-, before⟩ := inDirectory 14 (by decide)
  omega

end Wisebot.Sfs
