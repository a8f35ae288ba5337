import Wisebot.Sfs.Accounting

namespace Wisebot.Sfs

open Wisebot.Lib

/-! The directory as a set of file ids. -/

def addsEntry (sfs : Segment) (fileId : Nat) : Bool :=
  match sfsExistFile sfs fileId, dirAddEntry sfs fileId with
  | some (.error .fileNotExists), some (.success, _) => decide (1 ≤ fileId)
  | _, _ => false

/-- The ids that a sequence of appends adds to the directory, in call order. -/
def addedIds : Segment → List (Nat × List UInt8) → List Nat
  | _, [] => []
  | sfs, (fileId, buf) :: calls =>
    let later :=
      match sfsAppend sfs fileId buf with
      | none => []
      | some (_, next) => addedIds next calls
    if addsEntry sfs fileId then fileId :: later else later

structure ExactDirectory (sfs : Segment) (ids : List Nat) : Prop where
  found : ∀ id, 1 ≤ id → id < 2 ^ 31 → id ∈ ids →
    ∃ entry, dirGetEntry sfs id = some (.ok entry) ∧ entry.id = id
  missing : ∀ id, 1 ≤ id → id < 2 ^ 31 → id ∉ ids →
    dirGetEntry sfs id = some (.error .fileNotExists)
  once : ((dirEntries sfs).map DirEntry.id).Perm ids
  agrees : ∀ id, 1 ≤ id → id < 2 ^ 31 → sfsExistFile sfs id = dirGetEntry sfs id
  array : ∃ sorted, sfsGetFileArray sfs = some (.ok sorted) ∧ sorted.Pairwise (· < ·) ∧
    sorted.Perm ids ∧ (sorted.length : Int) = sfs.superBlock.fileCount

section

variable {sfs : Segment} {geo : Geometry} {files : Nat → Option (List UInt8)}
  {free : Nat} {chain : Nat → List Extent}

theorem idsInBlock_eq {block : Nat}
    (packed : ∀ index, ∀ later < geo.perBlock, index ≤ later →
      geo.ids sfs.mem block index = 0 → geo.ids sfs.mem block later = 0)
    {remaining index : Nat} (inBlock : index + remaining ≤ geo.perBlock) :
    idsInBlock (sfs.mem.read ((geo.dirStart + block) * geo.blockSize) geo.blockSize) remaining
      index =
        ((List.range' index remaining).map (geo.ids sfs.mem block)).filter (· ≠ 0) := by
  induction remaining generalizing index with
  | zero => rfl
  | succ remaining induction =>
    have here := entryInBlock_eq sfs.mem block (show index < geo.perBlock by omega)
    rw [idsInBlock, List.range'_succ, List.map_cons, List.filter_cons]
    simp only [here]
    by_cases isFree : geo.ids sfs.mem block index = 0
    · have rest : ((List.range' (index + 1) remaining).map (geo.ids sfs.mem block)).filter
          (· ≠ 0) = [] := by
        rw [List.filter_eq_nil_iff]
        intro id member
        obtain ⟨later, inRange, rfl⟩ := List.mem_map.mp member
        rw [List.mem_range'_1] at inRange
        have zero := packed index later (by omega) (by omega) isFree
        simp [zero]
      have free : (geo.entryAt sfs.mem block index).id = 0 := isFree
      rw [if_pos free, rest]
      simp [isFree]
    · have used : (geo.entryAt sfs.mem block index).id ≠ 0 := isFree
      rw [if_neg used, induction (by omega), if_pos (by simpa using isFree)]
      rfl

theorem Represents.dirIdsFrom (represents : Represents sfs geo files free chain)
    {remaining block : Nat} (inDir : block + remaining ≤ geo.dirCount) :
    Sfs.dirIdsFrom sfs remaining block = some (.ok
      ((List.range' block remaining).flatMap fun block =>
        ((List.range geo.perBlock).map (geo.ids sfs.mem block)).filter (· ≠ 0))) := by
  induction remaining generalizing block with
  | zero => rfl
  | succ remaining induction =>
    have shaped := represents.mounted.shaped
    have bound : block < geo.dirCount := by omega
    have packed := represents.placed.packed block bound
    have later := induction (show block + 1 + remaining ≤ geo.dirCount by omega)
    push_cast at later
    rw [Sfs.dirIdsFrom]
    simp only [represents.mounted.readDirBlock bound, later, shaped.entryCountInBlock,
      Int.toNat_natCast]
    rw [idsInBlock_eq packed (by omega), List.range'_succ, List.flatMap_cons,
      List.range_eq_range']

theorem Geometry.fileIds_eq (geo : Geometry) (mem : Mem) :
    geo.fileIds mem = (List.range geo.dirCount).flatMap fun block =>
      ((List.range geo.perBlock).map (geo.ids mem block)).filter (· ≠ 0) := by
  rw [Geometry.fileIds, Geometry.usedSlots, Geometry.slots, List.product, List.filter_flatMap,
    List.map_flatMap]
  refine List.flatMap_congr fun block _ => ?_
  rw [List.filter_map, List.map_map, List.filter_map]
  rfl

theorem Represents.sfsGetFileArray (represents : Represents sfs geo files free chain) :
    ∃ sorted, Sfs.sfsGetFileArray sfs = some (.ok sorted) ∧ sorted.Pairwise (· < ·) ∧
      sorted.Perm (geo.fileIds sfs.mem) ∧
      (sorted.length : Int) = sfs.superBlock.fileCount := by
  have ids := represents.dirIdsFrom (show 0 + geo.dirCount ≤ geo.dirCount by omega)
  rw [← List.range_eq_range', ← Geometry.fileIds_eq] at ids
  have count : ((geo.fileIds sfs.mem).length : Int) = sfs.superBlock.fileCount := by
    rw [Geometry.fileIds, List.length_map, represents.counted.count]
  have sorted := List.perm_insertionSort (· ≤ ·) (geo.fileIds sfs.mem)
  refine ⟨(geo.fileIds sfs.mem).insertionSort (· ≤ ·), ?_, ?_, sorted, ?_⟩
  · rw [Sfs.sfsGetFileArray, represents.mounted.shaped.dirBlockCount, Int.toNat_natCast]
    have start : Sfs.dirIdsFrom sfs geo.dirCount 0 = some (.ok (geo.fileIds sfs.mem)) := ids
    simp only [start, count, if_true]
  · have ordered := List.pairwise_insertionSort (· ≤ ·) (geo.fileIds sfs.mem)
    have nodup := sorted.nodup_iff.mpr represents.nodup_fileIds
    exact ordered.imp₂ (fun _ _ below different => lt_of_le_of_ne below different) nodup
  · rw [sorted.length_eq, count]

theorem Represents.dirGetEntry_absent (represents : Represents sfs geo files free chain)
    (inside : geo.ProbesInside) {id : Nat} (positive : 1 ≤ id) (small : id < 2 ^ 31)
    (absent : files id = none) : dirGetEntry sfs id = some (.error .fileNotExists) := by
  rw [dirGetEntry, represents.mounted.dirFindEntry id .find inside.hasDir]
  cases found : geo.search sfs.mem id with
  | outside => exact absurd found (inside.search positive small sfs.mem)
  | exhausted => rfl
  | place block index =>
    obtain ⟨_, _, isFree⟩ := represents.search_absent absent found
    rw [Geometry.ids] at isFree
    simp [DirOp.outcome, DirOp.atEntry, isFree]

theorem Represents.sfsExistFile_eq (represents : Represents sfs geo files free chain)
    (inside : geo.ProbesInside) {id : Nat} (positive : 1 ≤ id) (small : id < 2 ^ 31) :
    sfsExistFile sfs id = dirGetEntry sfs id := by
  rw [sfsExistFile]
  split
  case isTrue => rfl
  case isFalse beyond =>
    cases stored : files id with
    | none => exact (represents.dirGetEntry_absent inside positive small stored).symm
    | some content =>
      obtain ⟨minimum, maximum⟩ := represents.counted.bounds id (by simp [stored])
      exact absurd ⟨minimum, maximum⟩ beyond

theorem Represents.exactDirectory (represents : Represents sfs geo files free chain)
    (inside : geo.ProbesInside) {ids : List Nat} (nodup : ids.Nodup)
    (members : ∀ id, files id ≠ none ↔ id ∈ ids) : ExactDirectory sfs ids := by
  have same : (geo.fileIds sfs.mem).Perm ids := by
    rw [List.perm_ext_iff_of_nodup represents.nodup_fileIds nodup]
    intro id
    rw [represents.mem_fileIds, members]
  refine ⟨?_, ?_, ?_, ?_, ?_⟩
  · intro id _ _ member
    obtain ⟨content, stored⟩ := Option.ne_none_iff_exists'.mp ((members id).mpr member)
    obtain ⟨entry, found, isId, -⟩ := represents.dirGetEntry_stored stored
    exact ⟨entry, found, isId⟩
  · intro id positive small other
    refine represents.dirGetEntry_absent inside positive small ?_
    by_contra stored
    exact other ((members id).mp stored)
  · rw [dirEntries_eq represents.mounted, List.map_map]
    exact same
  · intro id positive small
    exact represents.sfsExistFile_eq inside positive small
  · obtain ⟨sorted, got, ordered, isSorted, count⟩ := represents.sfsGetFileArray
    exact ⟨sorted, got, ordered, isSorted.trans same, count⟩

theorem addsEntry_zero (sfs : Segment) : addsEntry sfs 0 = false := by
  rw [addsEntry]
  split <;> rfl

theorem Represents.sfsAppend_ids (represents : Represents sfs geo files free chain)
    (inside : geo.ProbesInside) {id : Nat} (small : id < 2 ^ 31) (buf : List UInt8) :
    ∃ result sfs' files' free' chain', sfsAppend sfs id buf = some (result, sfs') ∧
      Represents sfs' geo files' free' chain' ∧ sfs'.io = sfs.io ∧
      (addsEntry sfs id = true → files id = none) ∧
      ∀ other, files' other ≠ none ↔
        files other ≠ none ∨ (other = id ∧ addsEntry sfs id = true) := by
  rcases Nat.eq_zero_or_pos id with rfl | positive
  · have refused : sfsAppend sfs 0 buf = some (.error .fail, sfs) := by
      rw [sfsAppend, if_pos Nat.one_pos]
    refine ⟨_, sfs, files, free, chain, refused, represents, rfl, ?_, ?_⟩
    · simp [addsEntry_zero]
    · simp [addsEntry_zero]
  have nonzero : id ≠ 0 := by omega
  cases stored : files id with
  | some content =>
    obtain ⟨entry, found, -⟩ := represents.sfsExistFile_stored stored
    obtain ⟨result, sfs', written, free', chain', run, grown⟩ :=
      represents.sfsAppend_stored stored buf
    have old : addsEntry sfs id = false := by
      rw [addsEntry, found]
    refine ⟨result, sfs', _, free', chain', run, grown.represents, grown.io, by simp [old], ?_⟩
    intro other
    by_cases same : other = id
    · subst same
      simp [stored]
    · rw [Function.update_of_ne same]
      simp [old]
  | none =>
    have missing := represents.dirGetEntry_absent inside positive small stored
    rw [← represents.sfsExistFile_eq inside positive small] at missing
    have add := represents.mounted.dirFindEntry id .add inside.hasDir
    rcases represents.sfsAppend_absent stored nonzero small buf with
      ⟨-, noDir | outside⟩ | ⟨run, exhausted⟩ |
        ⟨block, index, result, sfs', written, free', chain', place, run, grown⟩
    · exact absurd inside.hasDir (by omega)
    · exact absurd outside (inside.search positive small sfs.mem)
    · have full : addsEntry sfs id = false := by
        simp only [addsEntry, missing, dirAddEntry, add, exhausted, DirOp.outcome,
          DirOp.missing]
      refine ⟨_, sfs, files, free, chain, run, represents, rfl, by simp [full], ?_⟩
      intro other
      simp [full]
    · obtain ⟨_, _, isFree⟩ := represents.search_absent stored place
      rw [Geometry.ids] at isFree
      have new : addsEntry sfs id = true := by
        simp only [addsEntry, missing, dirAddEntry, add, place, DirOp.outcome, DirOp.atEntry,
          isFree, if_true]
        exact decide_eq_true positive
      refine ⟨result, sfs', _, free', chain', run, grown.represents, grown.io,
        fun _ => rfl, ?_⟩
      intro other
      by_cases same : other = id
      · subst same
        simp [new]
      · rw [Function.update_of_ne same, Function.update_of_ne same]
        simp [same]

/-- A run adds every id at most once, and the files are those that were there
or were added. -/
theorem Represents.runAppends_ids (represents : Represents sfs geo files free chain)
    (inside : geo.ProbesInside) {calls : List (Nat × List UInt8)}
    (idsFit : ∀ call ∈ calls, call.1 < 2 ^ 31) :
    ∃ results sfs' files' free' chain', runAppends sfs calls = some (results, sfs') ∧
      Represents sfs' geo files' free' chain' ∧ sfs'.io = sfs.io ∧
      (addedIds sfs calls).Nodup ∧ (∀ id ∈ addedIds sfs calls, files id = none) ∧
      ∀ id, files' id ≠ none ↔ files id ≠ none ∨ id ∈ addedIds sfs calls := by
  induction calls generalizing sfs files free chain with
  | nil => exact ⟨[], sfs, files, free, chain, rfl, represents, rfl, by simp [addedIds]⟩
  | cons call calls induction =>
    obtain ⟨id, buf⟩ := call
    obtain ⟨result, next, files₁, free₁, chain₁, run, represents₁, io₁, isNew, step⟩ :=
      represents.sfsAppend_ids inside (idsFit (id, buf) List.mem_cons_self) buf
    obtain ⟨results, sfs', files', free', chain', rest, represents', io', nodup, absent,
      members⟩ := induction represents₁ fun call member =>
        idsFit call (List.mem_cons_of_mem _ member)
    have later : addedIds sfs ((id, buf) :: calls) =
        if addsEntry sfs id then id :: addedIds next calls else addedIds next calls := by
      rw [addedIds, run]
    have before : ∀ other ∈ addedIds next calls,
        files other = none ∧ ¬ (other = id ∧ addsEntry sfs id = true) := by
      intro other member
      have none_ := absent other member
      by_contra present
      refine absurd none_ ((step other).mpr ?_)
      by_cases stored : files other = none
      · exact .inr (by simpa [stored] using present)
      · exact .inl stored
    refine ⟨result :: results, sfs', files', free', chain', ?_, represents', io'.trans io₁,
      ?_, ?_, ?_⟩
    · rw [runAppends, run]
      simp only [rest]
    · rw [later]
      split
      case isTrue adds =>
        refine List.nodup_cons.mpr ⟨fun member => ?_, nodup⟩
        exact (before id member).2 ⟨rfl, adds⟩
      case isFalse => exact nodup
    · intro other member
      rw [later] at member
      split at member
      case isTrue adds =>
        rcases List.mem_cons.mp member with rfl | behind
        · exact isNew adds
        · exact (before other behind).1
      case isFalse => exact (before other member).1
    · intro other
      rw [members, step, later]
      split
      case isTrue adds =>
        rw [List.mem_cons]
        simp only [adds, and_true]
        tauto
      case isFalse keeps => simp [keeps]

end

theorem length_emptiedEntries {block : List UInt8} {remaining index : Nat}
    (fits : sizeofDirEntry * (index + remaining) ≤ block.length) :
    (emptiedEntries block remaining index).1.length = block.length - sizeofDirEntry * index := by
  induction remaining generalizing index with
  | zero => rw [emptiedEntries, List.length_drop]
  | succ remaining induction =>
    rw [emptiedEntries]
    split
    case isTrue => rw [List.length_drop]
    case isFalse =>
      rw [List.length_append, DirEntry.length_encode, induction (by
        rwa [Nat.add_right_comm, Nat.add_assoc])]
      simp only [sizeofDirEntry] at fits ⊢
      omega

theorem entryInBlock_drop (block : List UInt8) (index place : Nat) :
    entryInBlock (block.drop (sizeofDirEntry * index)) place =
      entryInBlock block (index + place) := by
  rw [entryInBlock, entryInBlock, List.drop_drop, Nat.mul_add]

theorem entryInBlock_emptiedEntries {block : List UInt8} {count : Nat}
    (small : ∀ place < count, (entryInBlock block place).id < 2 ^ 32)
    (blank : ∀ place, ∀ later < count, place ≤ later → (entryInBlock block place).id = 0 →
      entryInBlock block later = ⟨0, 0, 0, 0⟩)
    {remaining index : Nat} (total : index + remaining = count) {place : Nat}
    (inBlock : place < remaining) :
    entryInBlock (emptiedEntries block remaining index).1 place =
      ⟨(entryInBlock block (index + place)).id, 0, 0, 0⟩ := by
  induction remaining generalizing index place with
  | zero => cases inBlock
  | succ remaining induction =>
    rw [emptiedEntries]
    split
    case isTrue isFree =>
      rw [entryInBlock_drop, blank index (index + place) (by omega) (by omega) isFree]
    case isFalse =>
      have fits : ({ entryInBlock block index with
          size := 0, firstBlockNum := 0, lastBlockNum := 0 } : DirEntry).Fits :=
        ⟨small index (by omega), Nat.two_pow_pos 32, Nat.two_pow_pos 32, Nat.two_pow_pos 32⟩
      cases place with
      | zero =>
        rw [entryInBlock, Nat.mul_zero, List.drop_zero,
          List.take_left' (DirEntry.length_encode _), DirEntry.decode_encode fits]
        rfl
      | succ place =>
        have behind := entryInBlock_drop
          ({ entryInBlock block index with
            size := 0, firstBlockNum := 0, lastBlockNum := 0 }.encode ++
            (emptiedEntries block remaining (index + 1)).1) 1 place
        rw [Nat.mul_one, List.drop_left' (DirEntry.length_encode _),
          Nat.add_comm 1 place] at behind
        rw [← behind, induction (by omega) (by omega), Nat.add_right_comm, Nat.add_assoc]

theorem index_le_emptiedEntries (block : List UInt8) (remaining index : Nat) :
    index ≤ (emptiedEntries block remaining index).2 := by
  induction remaining generalizing index with
  | zero => rfl
  | succ remaining induction =>
    rw [emptiedEntries]
    split
    case isTrue => rfl
    case isFalse => exact (Nat.le_succ index).trans (induction (index + 1))

theorem emptiedEntries_none {block : List UInt8} {count : Nat}
    (none_ : (emptiedEntries block count 0).2 = 0) :
    count = 0 ∨ (entryInBlock block 0).id = 0 := by
  cases count with
  | zero => exact .inl rfl
  | succ count =>
    right
    rw [emptiedEntries] at none_
    split at none_
    case isTrue isFree => exact isFree
    case isFalse =>
      have some_ : 0 + 1 ≤ _ := index_le_emptiedEntries block count (0 + 1)
      exact absurd none_ (by show (emptiedEntries block count (0 + 1)).2 ≠ 0; omega)

structure SameDirectory (geo other : Geometry) : Prop where
  blockSize : other.blockSize = geo.blockSize
  dirStart : other.dirStart = geo.dirStart
  dirCount : other.dirCount = geo.dirCount
  perBlock : other.perBlock = geo.perBlock

namespace SameDirectory

variable {geo other : Geometry}

theorem entryAt (same : SameDirectory geo other) (mem : Mem) (block index : Nat) :
    other.entryAt mem block index = geo.entryAt mem block index := by
  rw [Geometry.entryAt, Geometry.entryAt, Geometry.slotOffset, Geometry.slotOffset,
    same.blockSize, same.dirStart]

theorem ids (same : SameDirectory geo other) (mem : Mem) (block index : Nat) :
    other.ids mem block index = geo.ids mem block index := by
  rw [Geometry.ids, same.entryAt, Geometry.ids]

theorem probes (same : SameDirectory geo other) : other.probes = geo.probes := by
  funext fileId
  rw [Geometry.probes, Geometry.probes, same.dirCount]

theorem usedSlots (same : SameDirectory geo other) (mem : Mem) :
    other.usedSlots mem = geo.usedSlots mem := by
  rw [Geometry.usedSlots, Geometry.usedSlots, Geometry.slots, Geometry.slots, same.dirCount,
    same.perBlock]
  simp only [same.ids]

end SameDirectory

section

variable {src dest : Segment} {geo other : Geometry} {files : Nat → Option (List UInt8)}
  {free : Nat} {chain : Nat → List Extent}

theorem entryAt_write_block {mem : Mem} {block : Nat} {bytes : List UInt8}
    (whole : bytes.length = geo.blockSize) {place index : Nat} (inBlock : index < geo.perBlock) :
    geo.entryAt (mem.write ((geo.dirStart + block) * geo.blockSize) bytes) place index =
      if place = block then entryInBlock bytes index else geo.entryAt mem place index := by
  split
  case isTrue here =>
    subst here
    rw [← entryInBlock_eq _ place inBlock, ← whole, Mem.read_write]
  case isFalse elsewhere =>
    have start : (geo.dirStart + place) * geo.blockSize ≤ geo.slotOffset place index :=
      Nat.le_add_right _ _
    have finish := geo.slotOffset_end place inBlock
    rw [Geometry.entryAt, Mem.read_write_disjoint, Geometry.entryAt]
    rw [whole]
    rcases Nat.lt_or_gt_of_ne elsewhere with before | behind
    · left
      exact finish.trans (Nat.mul_le_mul_right _ (by omega))
    · right
      refine Nat.le_trans ?_ start
      rw [← Nat.succ_mul]
      exact Nat.mul_le_mul_right _ (by omega)

theorem Represents.dirCopyFrom (represents : Represents src geo files free chain)
    (mounted : Mounted dest other) (same : SameDirectory geo other) {remaining block : Nat}
    (total : block + remaining = geo.dirCount)
    (blank : ∀ place < geo.dirCount, block ≤ place → ∀ index < geo.perBlock,
      geo.entryAt dest.mem place index = ⟨0, 0, 0, 0⟩) :
    ∃ mem, Sfs.dirCopyFrom src remaining block dest = some (.success, { dest with mem := mem }) ∧
      ∀ place < geo.dirCount, ∀ index < geo.perBlock, geo.entryAt mem place index =
        if block ≤ place then ⟨geo.ids src.mem place index, 0, 0, 0⟩
        else geo.entryAt dest.mem place index := by
  induction remaining generalizing block dest with
  | zero =>
    refine ⟨dest.mem, rfl, ?_⟩
    intro place inDir index _
    rw [if_neg (by omega)]
  | succ remaining induction =>
    have inDir : block < geo.dirCount := by omega
    have shaped := represents.mounted.shaped
    obtain ⟨bytes, isBytes⟩ : ∃ bytes, bytes = src.mem.read
        ((geo.dirStart + block) * geo.blockSize) geo.blockSize := ⟨_, rfl⟩
    have entries : ∀ index < geo.perBlock,
        entryInBlock bytes index = geo.entryAt src.mem block index := by
      intro index inBlock
      rw [isBytes, entryInBlock_eq src.mem block inBlock]
    have small : ∀ index < geo.perBlock, (entryInBlock bytes index).id < 2 ^ 32 := by
      intro index inBlock
      rw [entries index inBlock]
      by_cases used : geo.ids src.mem block index = 0
      · rw [Geometry.ids] at used
        rw [used]
        decide
      · obtain ⟨content, stored, -⟩ := represents.held block inDir index inBlock used
        exact (represents.stored _ _ stored).2.1.trans (by decide)
    have free_ : ∀ index, ∀ later < geo.perBlock, index ≤ later →
        (entryInBlock bytes index).id = 0 → entryInBlock bytes later = ⟨0, 0, 0, 0⟩ := by
      intro index later inBlock order isFree
      rw [entries index (by omega)] at isFree
      rw [entries later inBlock]
      exact represents.blank block inDir later inBlock
        (represents.placed.packed block inDir index later inBlock order isFree)
    have read := represents.mounted.readDirBlock inDir
    rw [← isBytes] at read
    rw [Sfs.dirCopyFrom]
    simp only [read, shaped.entryCountInBlock, Int.toNat_natCast]
    split
    case isTrue none_ =>
      have empty : ∀ index < geo.perBlock, geo.ids src.mem block index = 0 := by
        intro index inBlock
        rcases emptiedEntries_none none_ with noPlaces | isFree
        · omega
        · rw [Geometry.ids, ← entries index inBlock, free_ 0 index inBlock (by omega) isFree]
      obtain ⟨mem, run, copied⟩ := induction mounted (show block + 1 + remaining = _ by omega)
        fun place inDir behind => blank place inDir (by omega)
      push_cast at run
      refine ⟨mem, run, ?_⟩
      intro place inDir' index inBlock
      rw [copied place inDir' index inBlock]
      by_cases here : place = block
      · subst here
        rw [if_neg (by omega), if_pos le_rfl, empty index inBlock,
          blank place inDir' le_rfl index inBlock]
      · simp only [show block + 1 ≤ place ↔ block ≤ place by omega]
    case isFalse =>
      obtain ⟨written, isWritten⟩ : ∃ written,
          written = (emptiedEntries bytes geo.perBlock 0).1 := ⟨_, rfl⟩
      have whole : written.length = geo.blockSize := by
        rw [isWritten, length_emptiedEntries]
        · rw [isBytes, Mem.length_read, Nat.mul_zero, Nat.sub_zero]
        · rw [isBytes, Mem.length_read, Nat.zero_add]
          exact geo.entries_fit
      have behind : sizeofSuperBlock ≤ (geo.dirStart + block) * geo.blockSize := by
        have start := geo.dir_behind_header (Nat.zero_lt_of_lt inDir)
        exact start.trans (Nat.mul_le_mul_right _ (Nat.le_add_right _ _))
      have inside : (geo.dirStart + block) * geo.blockSize + written.length ≤
          other.blockCount * other.blockSize := by
        have bound := Geometry.dirBlock_end (same.dirCount ▸ inDir : block < other.dirCount)
        rw [Nat.add_mul _ 1, Nat.one_mul, same.blockSize, same.dirStart] at bound
        rw [whole, same.blockSize]
        exact bound
      have offset : (src.superBlock.startDirBlock + (block : Int)) * src.superBlock.blockSize =
          ((geo.dirStart + block) * geo.blockSize : Nat) := by
        rw [shaped.startDirBlock, shaped.blockSize]
        push_cast
        rfl
      have write := mounted.sfsBlockWrite written behind inside
      have entry : ∀ place, ∀ index < geo.perBlock, geo.entryAt (dest.mem.write
          ((geo.dirStart + block) * geo.blockSize) written) place index =
            if place = block then ⟨geo.ids src.mem block index, 0, 0, 0⟩
            else geo.entryAt dest.mem place index := by
        intro place index inBlock
        rw [entryAt_write_block whole inBlock, isWritten,
          entryInBlock_emptiedEntries small free_ (Nat.zero_add _) inBlock, Nat.zero_add,
          entries index inBlock]
        rfl
      obtain ⟨mem, run, copied⟩ := induction
        (mounted.write ((geo.dirStart + block) * geo.blockSize) written)
        (show block + 1 + remaining = _ by omega) (by
          intro place inDir later index inBlock
          rw [entry place index inBlock, if_neg (by omega)]
          exact blank place inDir (by omega) index inBlock)
      push_cast at run
      rw [← isWritten, offset, write]
      refine ⟨mem, run, ?_⟩
      intro place inDir' index inBlock
      rw [copied place inDir' index inBlock, entry place index inBlock]
      by_cases here : place = block
      · subst here
        rw [if_neg (by omega), if_pos rfl, if_pos le_rfl]
      · rw [if_neg here]
        simp only [show block + 1 ≤ place ↔ block ≤ place by omega]

theorem Represents.sfsDirectoryCopy (represents : Represents src geo files free chain)
    {destFree : Nat} (blank : Represents dest other (fun _ => none) destFree (fun _ => []))
    (same : SameDirectory geo other) :
    ∃ copy, Sfs.sfsDirectoryCopy src dest = some (.success, copy) ∧
      Represents copy other (fun id => (files id).map fun _ => []) destFree (fun _ => []) := by
  have shaped := represents.mounted.shaped
  have destShaped := blank.mounted.shaped
  have checks : ¬ (src.superBlock.blockSize ≠ dest.superBlock.blockSize ∨
      src.superBlock.startDirBlock ≠ dest.superBlock.startDirBlock ∨
      src.superBlock.dirBlockCount ≠ dest.superBlock.dirBlockCount ∨
      src.superBlock.entryCountInBlock ≠ dest.superBlock.entryCountInBlock) := by
    rw [shaped.blockSize, shaped.startDirBlock, shaped.dirBlockCount, shaped.entryCountInBlock,
      destShaped.blockSize, destShaped.startDirBlock, destShaped.dirBlockCount,
      destShaped.entryCountInBlock, same.blockSize, same.dirStart, same.dirCount, same.perBlock]
    simp
  obtain ⟨mem, run, copied⟩ := represents.dirCopyFrom blank.mounted same
    (show 0 + geo.dirCount = geo.dirCount by omega) (by
      intro place inDir _ index inBlock
      have free_ : other.ids dest.mem place index = 0 := by
        by_contra used
        obtain ⟨_, stored, -⟩ := blank.held place (same.dirCount ▸ inDir) index
          (same.perBlock ▸ inBlock) used
        cases stored
      rw [← same.entryAt]
      exact blank.blank place (same.dirCount ▸ inDir) index (same.perBlock ▸ inBlock) free_)
  obtain ⟨counted, isCounted⟩ : ∃ counted, counted = { dest.superBlock with
      fileCount := src.superBlock.fileCount
      minFileId := src.superBlock.minFileId
      maxFileId := src.superBlock.maxFileId } := ⟨_, rfl⟩
  refine ⟨{ dest with mem := mem, superBlock := counted }, ?_, ?_⟩
  · have start : Sfs.dirCopyFrom src geo.dirCount 0 dest =
        some (.success, { dest with mem := mem }) := run
    rw [Sfs.sfsDirectoryCopy, if_neg checks, shaped.dirBlockCount, Int.toNat_natCast, start,
      isCounted]
  have entries : ∀ block < other.dirCount, ∀ index < other.perBlock,
      other.entryAt mem block index = ⟨geo.ids src.mem block index, 0, 0, 0⟩ := by
    intro block inDir index inBlock
    rw [same.entryAt, copied block (same.dirCount ▸ inDir) index (same.perBlock ▸ inBlock),
      if_pos (Nat.zero_le _)]
  have ids : ∀ block < other.dirCount, ∀ index < other.perBlock,
      other.ids mem block index = geo.ids src.mem block index := by
    intro block inDir index inBlock
    rw [Geometry.ids, entries block inDir index inBlock]
  have slots : other.usedSlots mem = geo.usedSlots src.mem := by
    rw [same.usedSlots, Geometry.usedSlots, Geometry.usedSlots]
    refine List.filter_congr fun slot member => ?_
    obtain ⟨inDir, inBlock⟩ := Geometry.mem_slots.mp member
    rw [← same.ids, ids slot.1 (same.dirCount ▸ inDir) slot.2 (same.perBlock ▸ inBlock)]
  have placed : Probing.WellPlaced 0 other.dirCount other.perBlock other.probes
      (geo.ids src.mem) := by
    rw [same.dirCount, same.perBlock, same.probes]
    exact represents.placed
  refine
    { mounted := ⟨?_, blank.mounted.reliable⟩
      freeBlock := ?_
      free_ge := blank.free_ge
      free_le := blank.free_le
      placed := placed.congr ids
      blank := ?_
      held := ?_
      stored := ?_
      unchained := fun _ _ => rfl
      apart := fun _ _ _ _ member => by cases member
      counted := ?_ }
  · rw [isCounted]
    exact destShaped.counters _ _ _ _ _
  · rw [isCounted]
    exact blank.freeBlock
  · intro block inDir index inBlock isFree
    have zero : geo.ids src.mem block index = 0 := by
      rw [← ids block inDir index inBlock]
      exact isFree
    rw [← zero]
    exact (entries block inDir index inBlock).trans (by rw [zero])
  · intro block inDir index inBlock used
    rw [ids block inDir index inBlock] at used ⊢
    obtain ⟨content, stored, -⟩ := represents.held block (same.dirCount ▸ inDir) index
      (same.perBlock ▸ inBlock) used
    refine ⟨[], by simp [stored], ?_⟩
    rw [entries block inDir index inBlock]
    exact Holds.new other mem destFree _
  · intro id content stored
    obtain ⟨_, isStored, -⟩ := Option.map_eq_some_iff.mp stored
    obtain ⟨nonzero, small, block, inDir, index, inBlock, isId⟩ :=
      represents.stored id _ isStored
    refine ⟨nonzero, small, block, same.dirCount ▸ inDir, index, same.perBlock ▸ inBlock, ?_⟩
    rw [ids block (same.dirCount ▸ inDir) index (same.perBlock ▸ inBlock), isId]
  · rw [slots, isCounted]
    exact represents.counted.congr rfl rfl rfl fun id => by simp

end

/-- The layout that `dir_copy` asks for. -/
def SameLayout (superBlock other : SuperBlock) : Prop :=
  superBlock.blockSize = other.blockSize ∧ superBlock.startDirBlock = other.startDirBlock ∧
    superBlock.dirBlockCount = other.dirBlockCount ∧
    superBlock.entryCountInBlock = other.entryCountInBlock

theorem SameLayout.sameDirectory {superBlock superBlock' : SuperBlock} {geo other : Geometry}
    (same : SameLayout superBlock superBlock') (shaped : Shaped superBlock geo)
    (shaped' : Shaped superBlock' other) : SameDirectory geo other := by
  obtain ⟨blockSize, dirStart, dirCount, perBlock⟩ := same
  rw [shaped.blockSize, shaped'.blockSize] at blockSize
  rw [shaped.startDirBlock, shaped'.startDirBlock] at dirStart
  rw [shaped.dirBlockCount, shaped'.dirBlockCount] at dirCount
  rw [shaped.entryCountInBlock, shaped'.entryCountInBlock] at perBlock
  exact ⟨by exact_mod_cast blockSize.symm, by exact_mod_cast dirStart.symm,
    by exact_mod_cast dirCount.symm, by exact_mod_cast perBlock.symm⟩

/-- The directory of a formatted segment is the exact set of the files that
appends added, and so is a copy of it. -/
theorem sfsFormat_exactDirectory {sfs formatted : Segment} (reliable : sfs.io.Reliable)
    {option : UInt32} {size blockSize : Int} (sizeFits : size < 2 ^ 31)
    (run : sfsFormat sfs option size blockSize = some (.success, formatted))
    (probes : ProbesInDirectory formatted.superBlock) (type : OpenType)
    (calls : List (Nat × List UInt8)) (idsFit : ∀ call ∈ calls, call.1 < 2 ^ 31) :
    ∃ results final ids, runAppends { formatted with type := type } calls =
        some (results, final) ∧
      ids = addedIds { formatted with type := type } calls ∧ ExactDirectory final ids ∧
      ∀ dest destFormatted destOption destSize destBlockSize destType,
        dest.io.Reliable → destSize < 2 ^ 31 →
        sfsFormat dest destOption destSize destBlockSize = some (.success, destFormatted) →
        SameLayout formatted.superBlock destFormatted.superBlock →
        ∃ copy, sfsDirectoryCopy final { destFormatted with type := destType } =
            some (.success, copy) ∧ ExactDirectory copy ids ∧
          ∀ id ∈ ids, ∃ entry, dirGetEntry copy id = some (.ok entry) ∧ entry.size = 0 := by
  rw [sfsFormat_superBlock run] at probes
  obtain ⟨geo, _, inside, blank, _⟩ := sfsFormat_probes reliable sizeFits run probes
  obtain ⟨results, final, files, free, chain, appended, represents, _, nodup, _, members⟩ :=
    (blank.reopen type).runAppends_ids inside idsFit
  have exactIds : ∀ id, files id ≠ none ↔ id ∈ addedIds { formatted with type := type } calls := by
    intro id
    rw [members]
    simp
  refine ⟨results, final, _, appended, rfl, represents.exactDirectory inside nodup exactIds, ?_⟩
  intro dest destFormatted destOption destSize destBlockSize destType destReliable destFits
    destRun layout
  have destPositive : 0 < destSize := by
    have hasDir := inside.hasDir
    have count := layout.2.2.1
    rw [blank.mounted.shaped.dirBlockCount] at count
    refine sfsFormat_size_pos destRun ?_
    rw [← sfsFormat_superBlock destRun, ← count]
    exact_mod_cast hasDir
  obtain ⟨other, _, destBlank, -⟩ :=
    sfsFormat_represents destReliable destPositive destFits destRun
  have same := layout.sameDirectory blank.mounted.shaped destBlank.mounted.shaped
  obtain ⟨copy, copied, copyRepresents⟩ :=
    represents.sfsDirectoryCopy (destBlank.reopen destType) same
  have copyInside : other.ProbesInside := by
    intro id positive small block member
    rw [same.probes] at member
    rw [same.dirCount]
    exact inside id positive small block member
  refine ⟨copy, copied, copyRepresents.exactDirectory copyInside nodup ?_, ?_⟩
  · intro id
    rw [← exactIds]
    simp
  · intro id member
    obtain ⟨content, stored⟩ := Option.ne_none_iff_exists'.mp ((exactIds id).mpr member)
    obtain ⟨entry, found, -, holds⟩ :=
      copyRepresents.dirGetEntry_stored (by rw [stored]; rfl : _ = some [])
    exact ⟨entry, found, holds.size⟩

theorem sfsFormat_exactDirectory_two_appends :
    ∃ formatted, sfsFormat newSegment oFat 4680 36 = some (.success, formatted) ∧
      ∃ results final ids copy,
        runAppends { formatted with type := .file } [(2, [7, 8]), (1, [])] =
          some (results, final) ∧
        ids = addedIds { formatted with type := .file } [(2, [7, 8]), (1, [])] ∧
        ExactDirectory final ids ∧
        sfsDirectoryCopy final { formatted with type := .file } = some (.success, copy) ∧
        ExactDirectory copy ids := by
  obtain ⟨formatted, run⟩ : ∃ formatted,
      sfsFormat newSegment oFat 4680 36 = some (.success, formatted) := ⟨_, rfl⟩
  have probes := newSegment_probes run
  obtain ⟨results, final, ids, appended, isIds, exact_, copies⟩ :=
    sfsFormat_exactDirectory newSegment_reliable (by decide) run probes .file
      [(2, [7, 8]), (1, [])] (by decide)
  obtain ⟨copy, copied, exactCopy, -⟩ := copies newSegment formatted oFat 4680 36 .file
    newSegment_reliable (by decide) run ⟨rfl, rfl, rfl, rfl⟩
  exact ⟨formatted, run, results, final, ids, copy, appended, isIds, exact_, copied, exactCopy⟩

def failingIo : Io := ⟨fun _ size => size, fun _ size => min size 4⟩

/-- A directory block that is written in part holds a file whose entry could not
be added. -/
theorem sfsFormat_directory_tornWrite :
    ∃ formatted final, sfsFormat newSegment oFat 4680 36 = some (.success, formatted) ∧
      ProbesInDirectory formatted.superBlock ∧
      runAppends { formatted with type := .file, io := failingIo } [(1, [7])] =
        some ([.error .fail], final) ∧
      addedIds { formatted with type := .file, io := failingIo } [(1, [7])] = [] ∧
      ¬ ExactDirectory final [] := by
  obtain ⟨formatted, run⟩ : ∃ formatted,
      sfsFormat newSegment oFat 4680 36 = some (.success, formatted) := ⟨_, rfl⟩
  have outcome : ((sfsFormat newSegment oFat 4680 36).bind fun run =>
      (runAppends { run.2 with type := .file, io := failingIo } [(1, [7])]).map fun appended =>
        (appended.1, dirGetEntry appended.2 1,
          addedIds { run.2 with type := .file, io := failingIo } [(1, [7])])) =
      some ([.error .fail], some (.ok ⟨1, 0, 0, 0⟩), []) := by
    decide +kernel
  rw [run, Option.bind_some, Option.map_eq_some_iff] at outcome
  obtain ⟨⟨results, final⟩, appended, isOutcome⟩ := outcome
  obtain ⟨isResults, found, added⟩ : results = [.error .fail] ∧
      dirGetEntry final 1 = some (.ok ⟨1, 0, 0, 0⟩) ∧
        addedIds { formatted with type := .file, io := failingIo } [(1, [7])] = [] := by
    simpa using isOutcome
  refine ⟨formatted, final, run, newSegment_probes run, isResults ▸ appended, added, ?_⟩
  intro exact_
  have missing := exact_.missing 1 le_rfl (by decide) (by simp)
  rw [found] at missing
  cases missing

end Wisebot.Sfs
