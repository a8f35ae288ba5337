import Wisebot.Sfs.Format

namespace Wisebot.Sfs

open Wisebot.Lib

/-! A segment refines a map from file ids to byte strings. -/

/-- The directory blocks, counted from the first one, that `dir_find_entry`
may read for a file id. -/
def dirProbesFrom (superBlock : SuperBlock) : List Nat → Int → List Int
  | [], blockIdx => [blockIdx]
  | step :: retries, blockIdx =>
    blockIdx :: dirProbesFrom superBlock retries (nextBlockIdx superBlock blockIdx step)

def dirProbes (superBlock : SuperBlock) (fileId : Nat) : List Int :=
  dirProbesFrom superBlock nextBlock (getBlockIdx fileId superBlock.dirBlockCount)

def ProbesInDirectory (superBlock : SuperBlock) : Prop :=
  ∀ fileId, 1 ≤ fileId → fileId < 2 ^ 31 → ∀ blockIdx ∈ dirProbes superBlock fileId,
    superBlock.startDirBlock ≤ superBlock.startDirBlock + blockIdx ∧
      superBlock.startDirBlock + blockIdx ≤ superBlock.endDirBlock

/-- A sequence of `sfs_append` calls with their results. -/
def runAppends : Segment → List (Nat × List UInt8) →
    Option (List (Except Failure Nat) × Segment)
  | sfs, [] => some ([], sfs)
  | sfs, (fileId, buf) :: calls =>
    match sfsAppend sfs fileId buf with
    | none => none
    | some (result, sfs) =>
      match runAppends sfs calls with
      | none => none
      | some (results, sfs) => some (result :: results, sfs)

def contentOf (fileId : Nat) : List (Nat × List UInt8) → List Nat → List UInt8
  | (id, buf) :: calls, written :: writes =>
    (if id = fileId then buf.take written else []) ++ contentOf fileId calls writes
  | _, _ => []

namespace Geometry

def ProbesInside (geo : Geometry) : Prop :=
  ∀ fileId, 1 ≤ fileId → fileId < 2 ^ 31 → ∀ block ∈ geo.probes fileId, block < geo.dirCount

variable {geo : Geometry}

theorem ProbesInside.hasDir (inside : geo.ProbesInside) : 0 < geo.dirCount :=
  Nat.zero_lt_of_lt (inside 1 le_rfl (by decide) (1 % geo.dirCount) List.mem_cons_self)

theorem ProbesInside.search (inside : geo.ProbesInside) {fileId : Nat}
    (positive : 1 ≤ fileId) (small : fileId < 2 ^ 31) (mem : Mem) :
    geo.search mem fileId ≠ .outside :=
  Probing.walk_ne_outside (inside fileId positive small)

end Geometry

theorem dirProbesFrom_eq {superBlock : SuperBlock} {geo : Geometry}
    (shaped : Shaped superBlock geo) (retries : List Nat) (block : Nat) :
    dirProbesFrom superBlock retries block =
      (probesFrom geo.dirCount retries block).map Nat.cast := by
  induction retries generalizing block with
  | nil => rfl
  | cons step retries induction =>
    rw [dirProbesFrom, probesFrom, List.map_cons, shaped.nextBlockIdx, induction]

theorem ProbesInDirectory.inside {superBlock : SuperBlock} {geo : Geometry}
    (shaped : Shaped superBlock geo) (inDirectory : ProbesInDirectory superBlock) :
    geo.ProbesInside := by
  intro fileId positive small block member
  have start : getBlockIdx fileId superBlock.dirBlockCount =
      (fileId % geo.dirCount : Nat) := shaped.getBlockIdx fileId
  have probe := inDirectory fileId positive small block (by
    rw [dirProbes, start, dirProbesFrom_eq shaped]
    exact List.mem_map_of_mem member)
  rw [shaped.startDirBlock, shaped.endDirBlock] at probe
  omega

theorem nextProbe_lt {dirCount block step : Nat} (inDir : block < dirCount)
    (short : step ≤ dirCount) : nextProbe dirCount block step < dirCount := by
  rw [nextProbe]
  split <;> omega

theorem probesFrom_lt {dirCount : Nat} {retries : List Nat}
    (short : ∀ step ∈ retries, step ≤ dirCount) {block : Nat} (inDir : block < dirCount) :
    ∀ probe ∈ probesFrom dirCount retries block, probe < dirCount := by
  induction retries generalizing block with
  | nil => simpa [probesFrom]
  | cons step retries induction =>
    intro probe member
    rcases List.mem_cons.mp member with rfl | later
    · exact inDir
    · exact induction (fun other isRetry => short other (List.mem_cons_of_mem _ isRetry))
        (nextProbe_lt inDir (short step List.mem_cons_self)) probe later

theorem Shaped.probesInDirectory {superBlock : SuperBlock} {geo : Geometry}
    (shaped : Shaped superBlock geo) (large : 41 ≤ geo.dirCount) :
    ProbesInDirectory superBlock := by
  intro fileId _ _ blockIdx member
  have short : ∀ step ∈ nextBlock, step ≤ geo.dirCount := by
    intro step isStep
    have bound : ∀ step ∈ nextBlock, step ≤ 41 := by decide
    exact (bound step isStep).trans large
  rw [dirProbes, shaped.getBlockIdx, dirProbesFrom_eq shaped] at member
  obtain ⟨block, isProbe, rfl⟩ := List.mem_map.mp member
  have inDir := probesFrom_lt short (Nat.mod_lt _ (by omega)) block isProbe
  rw [shaped.startDirBlock, shaped.endDirBlock]
  omega

namespace Represents

variable {sfs : Segment} {geo : Geometry} {files : Nat → Option (List UInt8)}
  {free : Nat} {chain : Nat → List Extent} {id : Nat}

def bytesOf (files : Nat → Option (List UInt8)) (id : Nat) : List UInt8 := (files id).getD []

theorem bytesOf_update (files : Nat → Option (List UInt8)) (id other : Nat)
    (content : List UInt8) :
    bytesOf (Function.update files id (some content)) other =
      if id = other then content else bytesOf files other := by
  rw [bytesOf, Function.update_apply]
  by_cases same : other = id
  · subst same
    simp
  · rw [if_neg same, if_neg (Ne.symm same), bytesOf]

/-- With a table and a directory that no probe leaves every append returns. The file is there
then and has grown by what was written, unless the directory had no place for it. -/
theorem sfsAppend_files (represents : Represents sfs geo files free chain)
    (fat : geo.fat = true) (inside : geo.ProbesInside) (positive : 1 ≤ id)
    (small : id < 2 ^ 31) (buf : List UInt8) :
    ∃ written sfs' files' free' chain',
      sfsAppend sfs id buf = some (.ok written, sfs') ∧
      Represents sfs' geo files' free' chain' ∧ written ≤ buf.length ∧ sfs'.type = sfs.type ∧
      (written = 0 ∧ files' = files ∨
        files' = Function.update files id (some (bytesOf files id ++ buf.take written))) := by
  have nonzero : id ≠ 0 := by omega
  have returned : ∀ {result : Except Failure Nat} {written : Nat} {rest : Prop},
      (result = .ok written ∧ rest) ∨ (result = .error .fail ∧ geo.fat = false) →
        result = .ok written := by
    rintro _ _ _ (⟨done, _⟩ | ⟨_, flat⟩)
    · exact done
    · rw [fat] at flat
      cases flat
  cases stored : files id with
  | some content =>
    have bytes : bytesOf files id = content := by rw [bytesOf, stored, Option.getD_some]
    obtain ⟨_, sfs', written, free', chain', run, grown⟩ :=
      represents.sfsAppend_stored stored buf
    rw [returned grown.outcome] at run
    exact ⟨written, sfs', _, free', chain', run, grown.represents, grown.written_le, grown.type,
      .inr (by rw [bytes])⟩
  | none =>
    have bytes : bytesOf files id = [] := by rw [bytesOf, stored, Option.getD_none]
    rcases represents.sfsAppend_absent stored nonzero small buf with
      ⟨_, noDir | outside⟩ | ⟨run, _⟩ |
        ⟨_, _, _, sfs', written, free', chain', _, run, grown⟩
    · exact absurd inside.hasDir (by omega)
    · exact absurd outside (inside.search positive small sfs.mem)
    · exact ⟨0, sfs, files, free, chain, run, represents, Nat.zero_le _, rfl, .inl ⟨rfl, rfl⟩⟩
    · rw [returned grown.outcome] at run
      have represents' := grown.represents
      rw [Function.update_idem] at represents'
      exact ⟨written, sfs', _, free', chain', run, represents', grown.written_le, grown.type,
        .inr (by rw [bytes])⟩

theorem sfsAppend_fat (represents : Represents sfs geo files free chain)
    (fat : geo.fat = true) (inside : geo.ProbesInside) (positive : 1 ≤ id)
    (small : id < 2 ^ 31) (buf : List UInt8) :
    ∃ written sfs' files' free' chain',
      sfsAppend sfs id buf = some (.ok written, sfs') ∧
      Represents sfs' geo files' free' chain' ∧ written ≤ buf.length ∧
      ∀ other, bytesOf files' other =
        bytesOf files other ++ if id = other then buf.take written else [] := by
  obtain ⟨written, sfs', files', free', chain', run, represents', bound, _, grown⟩ :=
    represents.sfsAppend_files fat inside positive small buf
  refine ⟨written, sfs', files', free', chain', run, represents', bound, ?_⟩
  intro other
  rcases grown with ⟨rfl, rfl⟩ | rfl
  · simp
  · rw [bytesOf_update]
    split
    case isTrue same => rw [same]
    case isFalse => rw [List.append_nil]

theorem runAppends_fat (represents : Represents sfs geo files free chain)
    (fat : geo.fat = true) (inside : geo.ProbesInside) (calls : List (Nat × List UInt8))
    (idsFit : ∀ call ∈ calls, 1 ≤ call.1 ∧ call.1 < 2 ^ 31) :
    ∃ writes sfs' files' free' chain',
      runAppends sfs calls = some (writes.map .ok, sfs') ∧
      Represents sfs' geo files' free' chain' ∧
      ∀ other, bytesOf files' other = bytesOf files other ++ contentOf other calls writes := by
  induction calls generalizing sfs files free chain with
  | nil => exact ⟨[], sfs, files, free, chain, rfl, represents, by simp [contentOf]⟩
  | cons call calls induction =>
    obtain ⟨id, buf⟩ := call
    obtain ⟨positive, small⟩ := idsFit (id, buf) List.mem_cons_self
    obtain ⟨written, next, files₁, free₁, chain₁, run, represents₁, _, bytes⟩ :=
      represents.sfsAppend_fat fat inside positive small buf
    obtain ⟨writes, sfs', files', free', chain', rest, represents', content⟩ :=
      induction represents₁ fun call member => idsFit call (List.mem_cons_of_mem _ member)
    refine ⟨written :: writes, sfs', files', free', chain', ?_, represents', ?_⟩
    · rw [runAppends, run]
      simp only [rest, List.map_cons]
    · intro other
      rw [content, bytes, contentOf, List.append_assoc]

end Represents

theorem Represents.reopen {sfs : Segment} {geo : Geometry}
    {files : Nat → Option (List UInt8)} {free : Nat} {chain : Nat → List Extent}
    (represents : Represents sfs geo files free chain) (type : OpenType) :
    Represents { sfs with type := type } geo files free chain :=
  { represents with mounted := ⟨represents.mounted.shaped, represents.mounted.reliable⟩ }

theorem formattedSuperBlock_magic (option : UInt32) (size blockSize : Int) :
    (formattedSuperBlock option size blockSize).magic = sfsMagic := by
  obtain ⟨_, _, _, table⟩ := fatInitSuperblock_eq (blankSuperBlock option size blockSize)
  show (fatInitSuperblock _).magic = _
  rw [table]
  rfl

theorem sfsOpen_of_magic {sfs : Segment} (magic : sfs.superBlock.magic = sfsMagic)
    (type : OpenType) : sfsOpen sfs type = (.success, { sfs with type := type }) := by
  simp only [sfsOpen, sfsClose, magic, if_true]
  split
  case isTrue same => rw [← same.2]
  case isFalse => rfl

theorem sfsOpen_formatted {sfs : Segment} {option : UInt32} {size blockSize : Int}
    (formatted : sfs.superBlock = formattedSuperBlock option size blockSize)
    (type : OpenType) :
    sfsOpen sfs type = (.success, { sfs with type := type }) :=
  sfsOpen_of_magic (formatted ▸ formattedSuperBlock_magic option size blockSize) type

theorem sfsFormat_size_pos {sfs sfs' : Segment} {option : UInt32} {size blockSize : Int}
    (run : sfsFormat sfs option size blockSize = some (.success, sfs'))
    (hasDir : 0 < (formattedSuperBlock option size blockSize).dirBlockCount) : 0 < size := by
  obtain ⟨header, _, written⟩ := sfsFormat_success run
  obtain ⟨_, _, _, table⟩ := fatInitSuperblock_eq (blankSuperBlock option size blockSize)
  have blockSize_eq : (formattedSuperBlock option size blockSize).blockSize = blockSize := by
    show (fatInitSuperblock _).blockSize = _
    rw [table]
    rfl
  have size_eq : (formattedSuperBlock option size blockSize).size = size := by
    show (fatInitSuperblock _).size = _
    rw [table]
    rfl
  have start : (formattedSuperBlock option size blockSize).startDirBlock =
      (formattedSuperBlock option size blockSize).blockCount -
        (formattedSuperBlock option size blockSize).dirBlockCount := rfl
  generalize formattedSuperBlock option size blockSize = formatted at *
  obtain ⟨remaining, count⟩ : ∃ remaining,
      (formatted.blockCount - formatted.startDirBlock).toNat = remaining + 1 :=
    Nat.exists_eq_succ_of_ne_zero (by omega)
  rw [writeEmptyRootDir, if_neg (by rw [blockSize_eq]; omega), count,
    writeEmptyRootDirFrom] at written
  by_contra empty
  rw [sfsBlockWrite, if_neg] at written
  · cases written
  · rintro ⟨behind, inside⟩
    simp only [size_eq, List.length_replicate] at inside
    simp only [sizeofSuperBlock] at behind
    omega

theorem sfsFormat_probes {sfs sfs' : Segment} (reliable : sfs.io.Reliable)
    {option : UInt32} {size blockSize : Int} (fits : size < 2 ^ 31)
    (run : sfsFormat sfs option size blockSize = some (.success, sfs'))
    (probes : ProbesInDirectory (formattedSuperBlock option size blockSize)) :
    ∃ geo, LaidOut option size blockSize geo ∧ geo.ProbesInside ∧
      Represents sfs' geo (fun _ => none) geo.fileStart (fun _ => []) ∧
      sfs'.io = sfs.io := by
  have hasDir : 0 < (formattedSuperBlock option size blockSize).dirBlockCount := by
    obtain ⟨behind, before⟩ := probes 1 le_rfl (by decide) _ List.mem_cons_self
    have start : (formattedSuperBlock option size blockSize).startDirBlock =
        (formattedSuperBlock option size blockSize).blockCount -
          (formattedSuperBlock option size blockSize).dirBlockCount := rfl
    have last : (formattedSuperBlock option size blockSize).endDirBlock =
        (formattedSuperBlock option size blockSize).blockCount - 1 := rfl
    omega
  have positive := sfsFormat_size_pos run hasDir
  obtain ⟨geo, laidOut, represents, _, io⟩ := sfsFormat_represents reliable positive fits run
  exact ⟨geo, laidOut, probes.inside laidOut.shaped, represents, io⟩

/-- After any appends to a segment formatted with an allocation table every
file that has bytes reads as what was appended to it. -/
theorem sfs_refines_files {sfs formatted : Segment} (reliable : sfs.io.Reliable)
    {option : UInt32} {size blockSize : Int} (sizeFits : size < 2 ^ 31)
    (run : sfsFormat sfs option size blockSize = some (.success, formatted))
    (fat : option &&& oFat ≠ 0) (probes : ProbesInDirectory formatted.superBlock)
    (type : OpenType) (calls : List (Nat × List UInt8))
    (idsFit : ∀ call ∈ calls, 1 ≤ call.1 ∧ call.1 < 2 ^ 31) :
    ∃ opened writes final,
      sfsOpen formatted type = (.success, opened) ∧ opened.type = type ∧
      runAppends opened calls = some (writes.map .ok, final) ∧
      ∀ id, contentOf id calls writes ≠ [] →
        (∀ offset ≤ (contentOf id calls writes).length, ∀ n, ∃ bytes,
          sfsRead final id offset n = some (.ok bytes) ∧
          bytes.length = min n ((contentOf id calls writes).length - offset) ∧
          bytes = ((contentOf id calls writes).drop offset).take n) ∧
        ∃ info, sfsGetInfo final id = some (.ok info) ∧
          info.fileSize = (contentOf id calls writes).length := by
  have superBlock := sfsFormat_superBlock run
  rw [superBlock] at probes
  obtain ⟨geo, laidOut, inside, blank, _⟩ := sfsFormat_probes reliable sizeFits run probes
  have isFat : geo.fat = true := by
    rw [laidOut.fat_eq]
    exact bne_iff_ne.mpr fat
  obtain ⟨writes, final, files, free, chain, appended, represents, bytes⟩ :=
    (blank.reopen type).runAppends_fat isFat inside calls idsFit
  refine ⟨_, writes, final, sfsOpen_formatted superBlock type, rfl, appended, ?_⟩
  intro id nonempty
  have stored : files id = some (contentOf id calls writes) := by
    have content := bytes id
    rw [Represents.bytesOf, Represents.bytesOf, Option.getD_none, List.nil_append] at content
    cases isStored : files id with
    | none =>
      rw [isStored] at content
      exact absurd content.symm nonempty
    | some bytes =>
      rw [isStored] at content
      rw [← content]
      rfl
  refine ⟨?_, _, represents.sfsGetInfo_stored stored, rfl⟩
  intro offset bound n
  exact ⟨_, represents.sfsRead_stored stored bound n, by simp, rfl⟩

def newSegment : Segment where
  type := .unload
  io := ⟨fun _ size => size, fun _ size => size⟩
  superBlock := blankSuperBlock 0 0 0
  mem := fun _ => 0

theorem newSegment_reliable : newSegment.io.Reliable := ⟨fun _ _ => rfl, fun _ _ => rfl⟩

theorem LaidOut.probesInDirectory {option : UInt32} {size blockSize : Int} {geo : Geometry}
    (laidOut : LaidOut option size blockSize geo)
    (large : 41 ≤ (formattedSuperBlock option size blockSize).dirBlockCount) :
    ProbesInDirectory (formattedSuperBlock option size blockSize) := by
  rw [laidOut.shaped.dirBlockCount] at large
  exact laidOut.shaped.probesInDirectory (by omega)

theorem newSegment_probes {formatted : Segment}
    (run : sfsFormat newSegment oFat 4680 36 = some (.success, formatted)) :
    ProbesInDirectory formatted.superBlock := by
  obtain ⟨geo, laidOut, _⟩ :=
    sfsFormat_represents newSegment_reliable (by decide) (by decide) run
  rw [sfsFormat_superBlock run]
  exact laidOut.probesInDirectory (by decide)

theorem sfs_refines_files_two_appends :
    ∃ formatted, sfsFormat newSegment oFat 4680 36 = some (.success, formatted) ∧
      ProbesInDirectory formatted.superBlock ∧
      ∃ opened writes final,
        sfsOpen formatted .file = (.success, opened) ∧ opened.type = .file ∧
        runAppends opened [(1, [7, 8]), (2, [9])] = some (writes.map .ok, final) ∧
        ∀ id, contentOf id [(1, [7, 8]), (2, [9])] writes ≠ [] →
          (∀ offset ≤ (contentOf id [(1, [7, 8]), (2, [9])] writes).length, ∀ n, ∃ bytes,
            sfsRead final id offset n = some (.ok bytes) ∧
            bytes.length =
              min n ((contentOf id [(1, [7, 8]), (2, [9])] writes).length - offset) ∧
            bytes = ((contentOf id [(1, [7, 8]), (2, [9])] writes).drop offset).take n) ∧
          ∃ info, sfsGetInfo final id = some (.ok info) ∧
            info.fileSize = (contentOf id [(1, [7, 8]), (2, [9])] writes).length := by
  obtain ⟨formatted, run⟩ : ∃ formatted,
      sfsFormat newSegment oFat 4680 36 = some (.success, formatted) := ⟨_, rfl⟩
  have probes := newSegment_probes run
  exact ⟨formatted, run, probes, sfs_refines_files newSegment_reliable (by decide) run
    (by decide) probes .file [(1, [7, 8]), (2, [9])] (by decide)⟩

end Wisebot.Sfs
