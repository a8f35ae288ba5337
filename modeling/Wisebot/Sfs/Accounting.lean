import Mathlib.Algebra.BigOperators.Group.List.Basic
import Wisebot.Sfs.Refinement

namespace Wisebot.Sfs

open Wisebot.Lib

/-! The blocks between the first file block and the free ones are those of the
files, each in one file. -/

/-- The extents along the allocation table from a block on, `fuel` of them at most. -/
def followFat (sfs : Segment) (file : DirEntry) : (fuel num : Nat) → Option (List Extent)
  | 0, num => if num = 0 then some [] else none
  | fuel + 1, num =>
    if num = 0 then some []
    else
      match fatGetEntry sfs file num with
      | some (.ok entry) =>
        (followFat sfs file fuel entry.num).map fun rest => ⟨num, entry.count⟩ :: rest
      | _ => none

def fileExtents (sfs : Segment) (file : DirEntry) : Option (List Extent) :=
  followFat sfs file sfs.superBlock.freeBlockNum.toNat file.firstBlockNum

def fileBlocks (sfs : Segment) (file : DirEntry) : List Nat :=
  ((fileExtents sfs file).getD []).flatMap Extent.blocks

def dirEntries (sfs : Segment) : List DirEntry :=
  ((List.range sfs.superBlock.dirBlockCount.toNat).flatMap fun block : Nat =>
    (List.range sfs.superBlock.entryCountInBlock.toNat).map fun index : Nat =>
      entryInBlock (sfs.mem.read
        ((sfs.superBlock.startDirBlock + (block : Int)) * sfs.superBlock.blockSize).toNat
        sfs.superBlock.blockSize.toNat) index).filter fun entry => decide (entry.id ≠ 0)

/-- The number of blocks that hold `size` bytes. -/
def blocksFor (size blockSize : Nat) : Nat := (size + (blockSize - 1)) / blockSize

structure SpaceAccounted (sfs : Segment) : Prop where
  ends : ∀ entry ∈ dirEntries sfs, ∃ extents, fileExtents sfs entry = some extents ∧
    lastStart extents = entry.lastBlockNum
  partition : ((dirEntries sfs).flatMap (fileBlocks sfs)).Perm
    (List.range' sfs.superBlock.startFileBlock.toNat
      (sfs.superBlock.freeBlockNum - sfs.superBlock.startFileBlock).toNat)
  owned : ∀ entry ∈ dirEntries sfs,
    (fileBlocks sfs entry).length = blocksFor entry.size sfs.superBlock.blockSize.toNat
  total : sfs.superBlock.freeBlockNum - sfs.superBlock.startFileBlock =
    (((dirEntries sfs).map fun entry =>
      blocksFor entry.size sfs.superBlock.blockSize.toNat).sum : Nat)
  bound : sfs.superBlock.freeBlockNum ≤ sfs.superBlock.endFileBlock + 1

theorem blocksFor_eq {blockSize blocks fill : Nat} (some_ : 0 < fill) (bound : fill ≤ blockSize) :
    blocksFor (blocks * blockSize + fill) blockSize = blocks + 1 := by
  have split : blocks * blockSize + fill + (blockSize - 1) =
      blockSize * (blocks + 1) + (fill - 1) := by
    have swapped := Nat.mul_comm blockSize blocks
    rw [Nat.mul_add, Nat.mul_one]
    omega
  rw [blocksFor, split, Nat.mul_add_div (by omega), Nat.div_eq_of_lt (by omega), Nat.add_zero]

theorem blocksFor_zero {blockSize : Nat} (positive : 0 < blockSize) : blocksFor 0 blockSize = 0 := by
  rw [blocksFor, Nat.zero_add, Nat.div_eq_of_lt (Nat.sub_lt positive Nat.one_pos)]

theorem blocksFor_mul {size blockSize : Nat} (positive : 0 < blockSize) :
    blocksFor size blockSize * blockSize =
      size + (blockSize - size % blockSize) % blockSize := by
  have divided := Nat.div_add_mod' size blockSize
  have remainder := Nat.mod_lt size positive
  rcases Nat.eq_zero_or_pos (size % blockSize) with whole | broken
  · rcases Nat.eq_zero_or_pos (size / blockSize) with zero | some_
    · have empty : size = 0 := by
        rw [zero] at divided
        omega
      rw [empty, blocksFor_zero positive]
      simp
    · obtain ⟨rest, isRest⟩ := Nat.exists_eq_add_of_le' some_
      have full : size = rest * blockSize + blockSize := by
        rw [isRest, Nat.add_mul] at divided
        omega
      rw [whole, Nat.sub_zero, Nat.mod_self, full, blocksFor_eq positive le_rfl, Nat.add_mul]
      omega
  · have count : blocksFor (size / blockSize * blockSize + size % blockSize) blockSize =
        size / blockSize + 1 := blocksFor_eq broken remainder.le
    rw [divided] at count
    rw [count, Nat.add_mul, Nat.mod_eq_of_lt (by omega)]
    omega

theorem length_blocks (extents : List Extent) :
    (extents.flatMap Extent.blocks).length = (extents.map Extent.count).sum := by
  simp [List.length_flatMap, Extent.blocks]

theorem length_fullBytes_eq (mem : Mem) (blockSize : Nat) (extents : List Extent) :
    (fullBytes mem blockSize extents).length = (extents.map Extent.count).sum * blockSize := by
  induction extents with
  | nil => simp [fullBytes]
  | cons extent rest induction =>
    rw [fullBytes] at induction
    rw [fullBytes, List.flatMap_cons, List.length_append, induction, Mem.length_read,
      List.map_cons, List.sum_cons, Nat.add_mul]

section

variable {sfs : Segment} {geo : Geometry} {free : Nat} {entry : DirEntry}
  {extents : List Extent} {content : List UInt8}

theorem Holds.blocks (holds : Holds geo sfs.mem free entry extents content) :
    (extents.flatMap Extent.blocks).length = blocksFor content.length geo.blockSize := by
  have positive := geo.blockSize_pos
  have bytes := holds.bytes
  rw [length_blocks]
  rcases List.eq_nil_or_concat extents with none_ | ⟨front, last, split⟩
  · rw [none_, fileBytes] at bytes
    rw [none_, ← bytes, List.length_nil, blocksFor_zero positive]
    rfl
  · rw [List.concat_eq_append] at split
    subst split
    have nonempty := holds.nonempty last (by simp)
    have length := congrArg List.length bytes
    rw [fileBytes_append, List.length_append, length_fullBytes_eq, Mem.length_read] at length
    have size : content.length = ((front.map Extent.count).sum + (last.count - 1)) *
        geo.blockSize + lastBlockFill content.length geo.blockSize := by
      rw [Nat.add_mul]
      omega
    rw [size, blocksFor_eq (Holds.fill_pos geo content) (Holds.fill_le geo content)]
    simp only [List.map_append, List.map_cons, List.map_nil, List.sum_append, List.sum_cons,
      List.sum_nil]
    omega

theorem Holds.followFat (mounted : Mounted sfs geo)
    (freeBlock : sfs.superBlock.freeBlockNum = free) {front rest : List Extent}
    (holds : Holds geo sfs.mem free entry (front ++ rest) content) {fuel : Nat}
    (enough : rest.length ≤ fuel) :
    Sfs.followFat sfs entry fuel (headStart 0 rest) = some rest := by
  induction rest generalizing front fuel with
  | nil => cases fuel <;> simp [Sfs.followFat, headStart]
  | cons extent rest induction =>
    obtain ⟨fuel, rfl⟩ := Nat.exists_eq_succ_of_ne_zero (Nat.ne_of_gt
      (Nat.lt_of_lt_of_le (Nat.succ_pos _) enough))
    have above := holds.above extent (by simp)
    have files := geo.files_behind_header
    simp only [superBlockCount] at files
    have later : Holds geo sfs.mem free entry ((front ++ [extent]) ++ rest) content := by
      rwa [List.append_assoc, List.singleton_append]
    rw [headStart, Sfs.followFat, if_neg (by omega), holds.fatGetEntry mounted freeBlock]
    simp only [induction later (Nat.le_of_succ_le_succ enough), Option.map_some]

theorem Holds.mem_blocks (holds : Holds geo sfs.mem free entry extents content) {block : Nat}
    (member : block ∈ extents.flatMap Extent.blocks) :
    geo.fileStart ≤ block ∧ block < free := by
  obtain ⟨extent, own, inExtent⟩ := List.mem_flatMap.mp member
  have above := holds.above extent own
  have below := holds.below extent own
  rw [Extent.blocks, List.mem_range'_1] at inExtent
  omega

theorem Holds.length_le (holds : Holds geo sfs.mem free entry extents content) :
    extents.length ≤ free := by
  have few : extents.length ≤ (extents.flatMap Extent.blocks).length := by
    have nonempty := holds.nonempty
    rw [length_blocks]
    clear holds
    induction extents with
    | nil => exact Nat.zero_le _
    | cons extent rest induction =>
      have here := nonempty extent List.mem_cons_self
      have later := induction fun other member => nonempty other (List.mem_cons_of_mem _ member)
      rw [List.length_cons, List.map_cons, List.sum_cons]
      omega
  have inside : (extents.flatMap Extent.blocks).length ≤ (List.range free).length := by
    refine List.Subperm.length_le (List.subperm_of_subset (blocks_nodup holds.apart) ?_)
    intro block member
    exact List.mem_range.mpr (holds.mem_blocks member).2
  rw [List.length_range] at inside
  exact few.trans inside

end

theorem sum_changed {first second : List Nat} (nodup : first.Nodup) (nodup' : second.Nodup)
    {changed : Nat} (members : ∀ id, id ∈ second ↔ id = changed ∨ id ∈ first)
    {before after : Nat → Nat} (same : ∀ id, id ≠ changed → after id = before id)
    (absent : changed ∉ first → before changed = 0) :
    (second.map after).sum + before changed = (first.map before).sum + after changed := by
  have rest : ((first.erase changed).map after).sum = ((first.erase changed).map before).sum := by
    congr 1
    apply List.map_congr_left
    intro id member
    exact same id (nodup.mem_erase_iff.mp member).1
  have moved : second.Perm (changed :: first.erase changed) := by
    rw [List.perm_ext_iff_of_nodup nodup'
      (List.nodup_cons.mpr ⟨fun member => (nodup.mem_erase_iff.mp member).1 rfl, nodup.erase _⟩)]
    intro id
    rw [members, List.mem_cons, nodup.mem_erase_iff]
    tauto
  have total : (second.map after).sum =
      after changed + ((first.erase changed).map before).sum := by
    rw [(moved.map after).sum_eq, List.map_cons, List.sum_cons, rest]
  by_cases member : changed ∈ first
  · have split : (first.map before).sum =
        before changed + ((first.erase changed).map before).sum := by
      rw [((List.perm_cons_erase member).map before).sum_eq, List.map_cons, List.sum_cons]
    omega
  · rw [List.erase_of_not_mem member] at total
    have zero := absent member
    omega

def Geometry.fileIds (geo : Geometry) (mem : Mem) : List Nat :=
  (geo.usedSlots mem).map fun slot => geo.ids mem slot.1 slot.2

namespace Represents

variable {sfs sfs' : Segment} {geo : Geometry} {files : Nat → Option (List UInt8)}
  {free : Nat} {chain : Nat → List Extent} {id : Nat}

theorem mem_fileIds (represents : Represents sfs geo files free chain) :
    id ∈ geo.fileIds sfs.mem ↔ files id ≠ none := by
  rw [Geometry.fileIds, List.mem_map]
  constructor
  · rintro ⟨⟨block, index⟩, member, rfl⟩
    obtain ⟨inDir, inBlock, used⟩ := Geometry.mem_usedSlots.mp member
    obtain ⟨content, isContent, -⟩ := represents.held block inDir index inBlock used
    simp [isContent]
  · intro isStored
    obtain ⟨content, stored⟩ := Option.ne_none_iff_exists'.mp isStored
    obtain ⟨nonzero, -, block, inDir, index, inBlock, same⟩ := represents.stored id content stored
    exact ⟨(block, index), Geometry.mem_usedSlots.mpr ⟨inDir, inBlock, same ▸ nonzero⟩, same⟩

theorem nodup_fileIds (represents : Represents sfs geo files free chain) :
    (geo.fileIds sfs.mem).Nodup := by
  refine Geometry.nodup_usedSlots.map_on ?_
  rintro ⟨block, index⟩ isSlot ⟨other, place⟩ isOther same
  obtain ⟨inDir, inBlock, used⟩ := Geometry.mem_usedSlots.mp isSlot
  obtain ⟨otherInDir, otherInBlock, -⟩ := Geometry.mem_usedSlots.mp isOther
  obtain ⟨sameBlock, sameIndex⟩ :=
    represents.placed.unique inDir inBlock otherInDir otherInBlock used same.symm
  exact Prod.ext sameBlock.symm sameIndex.symm

end Represents

/-- The blocks that a file needs. -/
def Geometry.needed (geo : Geometry) (files : Nat → Option (List UInt8)) (id : Nat) : Nat :=
  blocksFor (Represents.bytesOf files id).length geo.blockSize

structure Balanced (sfs : Segment) (geo : Geometry) (files : Nat → Option (List UInt8))
    (free : Nat) (chain : Nat → List Extent) : Prop where
  represents : Represents sfs geo files free chain
  taken : geo.fileStart + ((geo.fileIds sfs.mem).map (geo.needed files)).sum = free

section

variable {sfs sfs' : Segment} {geo : Geometry} {files : Nat → Option (List UInt8)}
  {free free' : Nat} {chain chain' : Nat → List Extent} {id written : Nat}
  {content buf : List UInt8} {result : Except Failure Nat}

theorem Represents.free_le_dirStart (represents : Represents sfs geo files free chain)
    (ordered : geo.fileStart ≤ geo.dirStart) : free ≤ geo.dirStart := by
  have bound := represents.free_le
  omega

theorem Represents.Grown.taken
    (grown : Grown geo files free chain id content buf result sfs sfs' written free' chain')
    (freeBound : free ≤ geo.dirStart) (ordered : geo.fileStart ≤ geo.dirStart) :
    free + blocksFor (content ++ buf.take written).length geo.blockSize =
      free' + blocksFor content.length geo.blockSize := by
  have positive := geo.blockSize_pos
  have room := grown.room
  have freeBound' := grown.represents.free_le_dirStart ordered
  have before : blocksFor content.length geo.blockSize * geo.blockSize = _ := blocksFor_mul positive
  have after : blocksFor (content ++ buf.take written).length geo.blockSize * geo.blockSize = _ :=
    blocksFor_mul positive
  have length : (content ++ buf.take written).length = content.length + written := by
    rw [List.length_append, List.length_take, Nat.min_eq_left grown.written_le]
  rw [Geometry.roomFor, Geometry.roomFor, Geometry.slack, Geometry.slack, Nat.sub_mul,
    Nat.sub_mul] at room
  have freeBytes := Nat.mul_le_mul_right geo.blockSize freeBound
  have freeBytes' := Nat.mul_le_mul_right geo.blockSize freeBound'
  have bytes : (free + blocksFor (content ++ buf.take written).length geo.blockSize) *
      geo.blockSize = (free' + blocksFor content.length geo.blockSize) * geo.blockSize := by
    rw [Nat.add_mul, Nat.add_mul, before, after]
    omega
  exact Nat.eq_of_mul_eq_mul_right positive bytes

theorem Represents.Grown.sum_weight (weight : List UInt8 → Nat) (empty : weight [] = 0)
    (represents : Represents sfs geo files free chain)
    {filesBefore : Nat → Option (List UInt8)}
    (grown : Grown geo filesBefore free chain id content buf result sfs sfs' written free' chain')
    (before : ∀ other, other ≠ id → filesBefore other = files other)
    (isContent : Represents.bytesOf files id = content) :
    ((geo.fileIds sfs'.mem).map fun other => weight (Represents.bytesOf
        (Function.update filesBefore id (some (content ++ buf.take written))) other)).sum +
          weight content =
      ((geo.fileIds sfs.mem).map fun other => weight (Represents.bytesOf files other)).sum +
        weight (content ++ buf.take written) := by
  have here : Represents.bytesOf
      (Function.update filesBefore id (some (content ++ buf.take written))) id =
        content ++ buf.take written := by
    rw [Represents.bytesOf, Function.update_self]
    rfl
  have elsewhere : ∀ other, other ≠ id →
      Function.update filesBefore id (some (content ++ buf.take written)) other = files other := by
    intro other different
    rw [Function.update_of_ne different, before other different]
  have same : ∀ other, other ≠ id →
      weight (Represents.bytesOf
        (Function.update filesBefore id (some (content ++ buf.take written))) other) =
          weight (Represents.bytesOf files other) := by
    intro other different
    rw [Represents.bytesOf, Represents.bytesOf, elsewhere other different]
  have members : ∀ other, other ∈ geo.fileIds sfs'.mem ↔
      other = id ∨ other ∈ geo.fileIds sfs.mem := by
    intro other
    rw [grown.represents.mem_fileIds, represents.mem_fileIds]
    by_cases equal : other = id
    · subst equal
      simp
    · rw [elsewhere other equal]
      simp [equal]
  have absent : id ∉ geo.fileIds sfs.mem → weight (Represents.bytesOf files id) = 0 := by
    intro notThere
    rw [represents.mem_fileIds, not_not] at notThere
    rw [Represents.bytesOf, notThere]
    exact empty
  have sums := sum_changed represents.nodup_fileIds grown.represents.nodup_fileIds members same
    absent
  rwa [here, isContent] at sums

theorem Balanced.grow (balanced : Balanced sfs geo files free chain)
    (ordered : geo.fileStart ≤ geo.dirStart) {filesBefore : Nat → Option (List UInt8)}
    (grown : Represents.Grown geo filesBefore free chain id content buf result sfs sfs' written
      free' chain')
    (before : ∀ other, other ≠ id → filesBefore other = files other)
    (isContent : Represents.bytesOf files id = content) :
    ∃ files', Balanced sfs' geo files' free' chain' := by
  have taken := grown.taken (balanced.represents.free_le_dirStart ordered) ordered
  have sums := grown.sum_weight (fun bytes => blocksFor bytes.length geo.blockSize)
    (blocksFor_zero geo.blockSize_pos) balanced.represents before isContent
  have start : geo.fileStart + ((geo.fileIds sfs.mem).map fun other =>
      blocksFor (Represents.bytesOf files other).length geo.blockSize).sum = free := balanced.taken
  refine ⟨_, grown.represents, ?_⟩
  show geo.fileStart + ((geo.fileIds sfs'.mem).map fun other => blocksFor (Represents.bytesOf
    (Function.update filesBefore id (some (content ++ buf.take written))) other).length
      geo.blockSize).sum = free'
  omega

theorem Balanced.sfsAppend (balanced : Balanced sfs geo files free chain)
    (ordered : geo.fileStart ≤ geo.dirStart) (small : id < 2 ^ 31)
    (run : Sfs.sfsAppend sfs id buf = some (result, sfs')) :
    ∃ files' free' chain', Balanced sfs' geo files' free' chain' := by
  rcases Nat.eq_zero_or_pos id with zero | positive
  · rw [Sfs.sfsAppend, if_pos (by omega)] at run
    obtain ⟨-, rfl⟩ := Prod.mk.inj (Option.some.inj run)
    exact ⟨files, free, chain, balanced⟩
  · cases stored : files id with
    | some content =>
      obtain ⟨_, _, _, free', chain', appended, grown⟩ :=
        balanced.represents.sfsAppend_stored stored buf
      rw [run] at appended
      obtain ⟨-, rfl⟩ := Prod.mk.inj (Option.some.inj appended)
      obtain ⟨files', kept⟩ := balanced.grow ordered grown (fun _ _ => rfl)
        (by rw [Represents.bytesOf, stored]; rfl)
      exact ⟨files', free', chain', kept⟩
    | none =>
      rcases balanced.represents.sfsAppend_absent stored (by omega) small buf with
        ⟨undefined, -⟩ | ⟨unchanged, -⟩ | ⟨_, _, _, _, _, free', chain', -, appended, grown⟩
      · rw [run] at undefined
        cases undefined
      · rw [run] at unchanged
        obtain ⟨-, rfl⟩ := Prod.mk.inj (Option.some.inj unchanged)
        exact ⟨files, free, chain, balanced⟩
      · rw [run] at appended
        obtain ⟨-, rfl⟩ := Prod.mk.inj (Option.some.inj appended)
        obtain ⟨files', kept⟩ := balanced.grow ordered grown
          (fun other different => Function.update_of_ne different _ _)
          (by rw [Represents.bytesOf, stored]; rfl)
        exact ⟨files', free', chain', kept⟩

theorem Balanced.runAppends (balanced : Balanced sfs geo files free chain)
    (ordered : geo.fileStart ≤ geo.dirStart) {calls : List (Nat × List UInt8)}
    (small : ∀ call ∈ calls, call.1 < 2 ^ 31) {results : List (Except Failure Nat)}
    (run : Sfs.runAppends sfs calls = some (results, sfs')) :
    ∃ files' free' chain', Balanced sfs' geo files' free' chain' := by
  induction calls generalizing sfs files free chain results with
  | nil =>
    obtain ⟨-, rfl⟩ := Prod.mk.inj (Option.some.inj run)
    exact ⟨files, free, chain, balanced⟩
  | cons call calls induction =>
    obtain ⟨id, buf⟩ := call
    rw [Sfs.runAppends] at run
    split at run
    next => cases run
    next result next appended =>
      split at run
      next => cases run
      next rest final later =>
        obtain ⟨-, rfl⟩ := Prod.mk.inj (Option.some.inj run)
        obtain ⟨files₁, free₁, chain₁, kept⟩ :=
          balanced.sfsAppend ordered (small (id, buf) List.mem_cons_self) appended
        exact induction kept (fun other member => small other (List.mem_cons_of_mem _ member))
          later

theorem dirEntries_eq (mounted : Mounted sfs geo) :
    dirEntries sfs = (geo.usedSlots sfs.mem).map fun slot => geo.entryAt sfs.mem slot.1 slot.2 := by
  have place : ∀ block : Nat,
      ((sfs.superBlock.startDirBlock + (block : Int)) * sfs.superBlock.blockSize).toNat =
        (geo.dirStart + block) * geo.blockSize := by
    intro block
    rw [mounted.shaped.startDirBlock, mounted.shaped.blockSize]
    exact_mod_cast Int.toNat_natCast _
  have rows : ((List.range geo.dirCount).flatMap fun block =>
      (List.range geo.perBlock).map fun index =>
        entryInBlock (sfs.mem.read ((geo.dirStart + block) * geo.blockSize) geo.blockSize) index) =
      geo.slots.map fun slot => geo.entryAt sfs.mem slot.1 slot.2 := by
    rw [Geometry.slots, List.product, List.map_flatMap]
    refine List.flatMap_congr fun block _ => ?_
    rw [List.map_map]
    refine List.map_congr_left fun index member => ?_
    exact entryInBlock_eq sfs.mem block (List.mem_range.mp member)
  rw [dirEntries, mounted.shaped.dirBlockCount, mounted.shaped.entryCountInBlock,
    Int.toNat_natCast, Int.toNat_natCast]
  simp only [place]
  simp only [mounted.shaped.blockSize, Int.toNat_natCast]
  rw [rows, List.filter_map]
  rfl

theorem Represents.of_mem_dirEntries (represents : Represents sfs geo files free chain)
    {entry : DirEntry} (member : entry ∈ dirEntries sfs) :
    ∃ content, files entry.id = some content ∧
      Holds geo sfs.mem free entry (chain entry.id) content := by
  rw [dirEntries_eq represents.mounted] at member
  obtain ⟨⟨block, index⟩, isSlot, rfl⟩ := List.mem_map.mp member
  obtain ⟨inDir, inBlock, used⟩ := Geometry.mem_usedSlots.mp isSlot
  exact represents.held block inDir index inBlock used

theorem Holds.fileExtents (mounted : Mounted sfs geo)
    (freeBlock : sfs.superBlock.freeBlockNum = free) {entry : DirEntry} {extents : List Extent}
    (holds : Holds geo sfs.mem free entry extents content) :
    Sfs.fileExtents sfs entry = some extents := by
  have whole : Holds geo sfs.mem free entry ([] ++ extents) content := holds
  rw [Sfs.fileExtents, holds.first, freeBlock, Int.toNat_natCast]
  exact whole.followFat mounted freeBlock holds.length_le

theorem Represents.fileBlocks (represents : Represents sfs geo files free chain)
    {entry : DirEntry} (member : entry ∈ dirEntries sfs) :
    Sfs.fileBlocks sfs entry = (chain entry.id).flatMap Extent.blocks := by
  obtain ⟨content, -, holds⟩ := represents.of_mem_dirEntries member
  rw [Sfs.fileBlocks, holds.fileExtents represents.mounted represents.freeBlock]
  rfl

theorem Balanced.spaceAccounted (balanced : Balanced sfs geo files free chain)
    (ordered : geo.fileStart ≤ geo.dirStart) : SpaceAccounted sfs := by
  have represents := balanced.represents
  have shaped := represents.mounted.shaped
  have entries := dirEntries_eq represents.mounted
  have sizes : ((dirEntries sfs).map fun entry => blocksFor entry.size geo.blockSize) =
      (geo.fileIds sfs.mem).map (geo.needed files) := by
    have ids : geo.fileIds sfs.mem = (dirEntries sfs).map DirEntry.id := by
      rw [entries, List.map_map]
      rfl
    rw [ids, List.map_map]
    refine List.map_congr_left fun entry member => ?_
    obtain ⟨content, isContent, holds⟩ := represents.of_mem_dirEntries member
    rw [Function.comp_apply, Geometry.needed, Represents.bytesOf, isContent, holds.size]
    rfl
  have owned : ∀ entry ∈ dirEntries sfs,
      (Sfs.fileBlocks sfs entry).length = blocksFor entry.size geo.blockSize := by
    intro entry member
    obtain ⟨content, -, holds⟩ := represents.of_mem_dirEntries member
    rw [represents.fileBlocks member, holds.blocks, holds.size]
  have ids : (dirEntries sfs).Pairwise fun first second => first.id ≠ second.id := by
    have nodup := represents.nodup_fileIds
    rw [Geometry.fileIds, List.Nodup, List.pairwise_map] at nodup
    rw [entries, List.pairwise_map]
    exact nodup
  have nodup : ((dirEntries sfs).flatMap (Sfs.fileBlocks sfs)).Nodup := by
    rw [List.nodup_flatMap]
    constructor
    · intro entry member
      obtain ⟨content, -, holds⟩ := represents.of_mem_dirEntries member
      rw [represents.fileBlocks member]
      exact blocks_nodup holds.apart
    · refine ids.imp_of_mem ?_
      intro first second isFirst isSecond different block inFirst inSecond
      rw [represents.fileBlocks isFirst] at inFirst
      rw [represents.fileBlocks isSecond] at inSecond
      obtain ⟨extent, own, inExtent⟩ := List.mem_flatMap.mp inFirst
      obtain ⟨other, otherOwn, inOther⟩ := List.mem_flatMap.mp inSecond
      rw [Extent.blocks, List.mem_range'_1] at inExtent inOther
      rcases represents.apart _ _ different extent own other otherOwn with before | behind <;> omega
  have length : ((dirEntries sfs).flatMap (Sfs.fileBlocks sfs)).length = free - geo.fileStart := by
    rw [List.length_flatMap, List.map_congr_left owned, sizes]
    have taken := balanced.taken
    omega
  have partition : ((dirEntries sfs).flatMap (Sfs.fileBlocks sfs)).Perm
      (List.range' geo.fileStart (free - geo.fileStart)) := by
    refine (List.subperm_of_subset nodup ?_).perm_of_length_le ?_
    · intro block inFiles
      obtain ⟨entry, member, inFile⟩ := List.mem_flatMap.mp inFiles
      obtain ⟨content, -, holds⟩ := represents.of_mem_dirEntries member
      rw [represents.fileBlocks member] at inFile
      have range := holds.mem_blocks inFile
      rw [List.mem_range'_1]
      omega
    · rw [List.length_range', length]
  have free_ge := represents.free_ge
  refine ⟨?_, ?_, ?_, ?_, ?_⟩
  · intro entry member
    obtain ⟨content, -, holds⟩ := represents.of_mem_dirEntries member
    exact ⟨_, holds.fileExtents represents.mounted represents.freeBlock, holds.last.symm⟩
  · rw [shaped.startFileBlock, represents.freeBlock, Int.toNat_natCast,
      show ((free : Int) - geo.fileStart).toNat = free - geo.fileStart by omega]
    exact partition
  · rw [shaped.blockSize, Int.toNat_natCast]
    exact owned
  · rw [shaped.blockSize, Int.toNat_natCast, sizes, shaped.startFileBlock, represents.freeBlock]
    have taken := balanced.taken
    omega
  · rw [represents.freeBlock, shaped.endFileBlock]
    have bound := represents.free_le_dirStart ordered
    omega

end

theorem formattedSuperBlock_size_pos {option : UInt32} {size blockSize : Int}
    (header : 36 ≤ blockSize)
    (room : (formattedSuperBlock option size blockSize).freeBlockNum ≤
      (formattedSuperBlock option size blockSize).endFileBlock + 1) : 0 < size := by
  by_contra negative
  obtain ⟨lack, isLack⟩ := Int.eq_ofNat_of_zero_le (show 0 ≤ -size by omega)
  lift blockSize to Nat using by omega
  have large : 36 ≤ blockSize := by exact_mod_cast header
  obtain ⟨blank, isBlank⟩ : ∃ blank, blank = blankSuperBlock option size blockSize := ⟨_, rfl⟩
  -- the quotient of a negative size is that of its absolute value
  have quotient : ∀ count : Nat, Int.tdiv (-(count : Int)) blockSize =
      -((count / blockSize : Nat) : Int) := by
    intro count
    rw [Int.neg_tdiv, Int.tdiv_eq_ediv_of_nonneg (Int.natCast_nonneg _)]
    rfl
  have small : ∀ count : Nat, count / blockSize ≤ count / 36 := fun count =>
    Nat.div_le_div_left large (by decide)
  have blocks : blank.blockCount = -((lack / blockSize : Nat) : Int) := by
    rw [isBlank, ← quotient, ← isLack, neg_neg]
    rfl
  have blockSize_eq : blank.blockSize = blockSize := by
    rw [isBlank]
    rfl
  obtain ⟨count, isCount⟩ : ∃ count, count = lack / blockSize := ⟨_, rfl⟩
  rw [← isCount] at blocks
  obtain ⟨_, _, free, table⟩ := fatInitSuperblock_eq blank
  have free_ge : 2 - ((8 * count / 36 : Nat) : Int) ≤ free := by
    have isFree : (fatInitSuperblock blank).freeBlockNum = free := by rw [table]
    have bound := small (8 * count)
    rw [← isFree, fatInitSuperblock, blocks, blockSize_eq,
      show (-(count : Int) * sizeofFatEntry) = -((8 * count : Nat) : Int) by
        rw [sizeofFatEntry]
        push_cast
        ring, quotient]
    simp only [superBlockCount]
    split <;> try split
    all_goals
      simp only
      omega
  obtain ⟨behind, isBehind⟩ : ∃ behind : Nat, (count : Int) + free = behind :=
    ⟨_, (Int.toNat_of_nonneg (by omega)).symm⟩
  have directory : -((16 * behind / 36 : Nat) : Int) ≤
      (dirInitSuperblock (fatInitSuperblock blank)).dirBlockCount := by
    have bound := small (16 * behind)
    rw [dirInitSuperblock, table]
    simp only [blocks, blockSize_eq]
    rw [show (sizeofDirEntry : Int) * (-(count : Int) - free) = -((16 * behind : Nat) : Int) by
      rw [sizeofDirEntry]
      push_cast
      rw [← isBehind]
      ring, quotient]
    split <;> omega
  have end_eq : (formattedSuperBlock option size blockSize).endFileBlock =
      (fatInitSuperblock blank).blockCount -
        (dirInitSuperblock (fatInitSuperblock blank)).dirBlockCount - 1 := by
    rw [isBlank]
    rfl
  have free_eq : (formattedSuperBlock option size blockSize).freeBlockNum =
      (fatInitSuperblock blank).freeBlockNum := by
    rw [isBlank]
    rfl
  rw [end_eq, free_eq] at room
  generalize (dirInitSuperblock (fatInitSuperblock blank)).dirBlockCount = dirCount at directory room
  rw [table] at room
  simp only [blocks] at room
  omega

/-- After any appends to a formatted segment the space is accounted for, just
when the layout leaves the files no negative room. -/
theorem sfsFormat_spaceAccounted_iff {sfs formatted : Segment} (reliable : sfs.io.Reliable)
    {option : UInt32} {size blockSize : Int} (sizeFits : size < 2 ^ 31)
    (run : sfsFormat sfs option size blockSize = some (.success, formatted)) :
    (∀ type calls results final, (∀ call ∈ calls, call.1 < 2 ^ 31) →
      runAppends { formatted with type := type } calls = some (results, final) →
        SpaceAccounted final) ↔
      formatted.superBlock.freeBlockNum ≤ formatted.superBlock.endFileBlock + 1 := by
  obtain ⟨header, -, -⟩ := sfsFormat_success run
  constructor
  · intro accounted
    exact (accounted .file [] [] _ (by simp) rfl).bound
  · intro room type calls results final small appended
    have positive : 0 < size := by
      rw [sfsFormat_superBlock run] at room
      exact formattedSuperBlock_size_pos header room
    obtain ⟨geo, laidOut, blank, -⟩ := sfsFormat_represents reliable positive sizeFits run
    have ordered : geo.fileStart ≤ geo.dirStart := by
      rw [blank.freeBlock, blank.mounted.shaped.endFileBlock] at room
      omega
    have opened := blank.reopen type
    have none_ : geo.fileIds formatted.mem = [] := by
      rw [List.eq_nil_iff_forall_not_mem]
      intro id member
      exact blank.mem_fileIds.mp member rfl
    have balanced : Balanced { formatted with type := type } geo (fun _ => none) geo.fileStart
        (fun _ => []) := ⟨opened, by rw [none_]; rfl⟩
    obtain ⟨files, free, chain, kept⟩ := balanced.runAppends ordered small appended
    exact kept.spaceAccounted ordered

theorem sfsFormat_spaceAccounted_two_appends : ∃ formatted,
    sfsFormat newSegment oFat 4680 36 = some (.success, formatted) ∧
      ∃ results final,
        runAppends { formatted with type := .file } [(1, [7, 8]), (2, [9])] =
          some (results, final) ∧ SpaceAccounted final := by
  obtain ⟨formatted, run⟩ : ∃ formatted,
      sfsFormat newSegment oFat 4680 36 = some (.success, formatted) := ⟨_, rfl⟩
  have room : formatted.superBlock.freeBlockNum ≤ formatted.superBlock.endFileBlock + 1 := by
    rw [sfsFormat_superBlock run]
    decide
  have accounted := (sfsFormat_spaceAccounted_iff newSegment_reliable (by decide) run).mpr room
  have probes := newSegment_probes run
  rw [sfsFormat_superBlock run] at probes
  obtain ⟨geo, laidOut, inside, blank, _⟩ :=
    sfsFormat_probes newSegment_reliable (by decide) run probes
  have isFat : geo.fat = true := by
    rw [laidOut.fat_eq]
    decide
  obtain ⟨writes, final, _, _, _, appended, _⟩ := (blank.reopen .file).runAppends_fat isFat inside
    [(1, [7, 8]), (2, [9])] (by decide)
  exact ⟨formatted, run, _, final, appended, accounted .file _ _ _ (by decide) appended⟩

/-- The table of two blocks begins behind the segment, and the directory lies on
the second block of the header. -/
theorem sfsFormat_without_room : ∃ formatted,
    sfsFormat newSegment oFat 144 72 = some (.success, formatted) ∧
      formatted.superBlock.freeBlockNum = 3 ∧ formatted.superBlock.endFileBlock = 0 ∧
      ¬ ∀ type calls results final, (∀ call ∈ calls, call.1 < 2 ^ 31) →
        runAppends { formatted with type := type } calls = some (results, final) →
          SpaceAccounted final := by
  obtain ⟨formatted, run⟩ : ∃ formatted,
      sfsFormat newSegment oFat 144 72 = some (.success, formatted) := ⟨_, rfl⟩
  have free : formatted.superBlock.freeBlockNum = 3 := by
    rw [sfsFormat_superBlock run]
    decide
  have last : formatted.superBlock.endFileBlock = 0 := by
    rw [sfsFormat_superBlock run]
    decide
  refine ⟨formatted, run, free, last, ?_⟩
  intro accounted
  have bound := (accounted .file [] [] _ (by simp) rfl).bound
  rw [free, last] at bound
  omega

end Wisebot.Sfs
