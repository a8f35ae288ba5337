import Mathlib.Data.List.ProdSigma
import Mathlib.Logic.Function.Basic
import Wisebot.Sfs.Append

namespace Wisebot.Sfs

open Wisebot.Lib

/-! A segment as a map from file ids to byte strings. -/

namespace Geometry

variable (geo : Geometry)

def slots : List (Nat × Nat) := (List.range geo.dirCount).product (List.range geo.perBlock)

def usedSlots (mem : Mem) : List (Nat × Nat) :=
  geo.slots.filter fun slot => geo.ids mem slot.1 slot.2 ≠ 0

variable {geo}

theorem mem_slots {slot : Nat × Nat} :
    slot ∈ geo.slots ↔ slot.1 < geo.dirCount ∧ slot.2 < geo.perBlock := by
  obtain ⟨block, index⟩ := slot
  simp [slots]

theorem nodup_slots : geo.slots.Nodup :=
  List.Nodup.product List.nodup_range List.nodup_range

theorem mem_usedSlots {mem : Mem} {slot : Nat × Nat} :
    slot ∈ geo.usedSlots mem ↔
      slot.1 < geo.dirCount ∧ slot.2 < geo.perBlock ∧ geo.ids mem slot.1 slot.2 ≠ 0 := by
  simp [usedSlots, mem_slots, and_assoc]

theorem nodup_usedSlots {mem : Mem} : (geo.usedSlots mem).Nodup :=
  nodup_slots.filter _

variable {mem : Mem} {block index : Nat}

theorem entryAt_write_entry {entry : DirEntry} (fits : entry.Fits) :
    geo.entryAt (mem.write (geo.slotOffset block index) entry.encode) block index =
      entry := by
  rw [entryAt, ← DirEntry.length_encode entry, Mem.read_write,
    DirEntry.decode_encode fits]

theorem entryAt_write_id {id : Nat} (fits : id < 2 ^ 32) :
    geo.entryAt (mem.write (geo.slotOffset block index) (encodeWord 4 id)) block index =
      { geo.entryAt mem block index with id := id } := by
  have split : (mem.write (geo.slotOffset block index) (encodeWord 4 id)).read
      (geo.slotOffset block index) sizeofDirEntry = encodeWord 4 id ++
        (mem.read (geo.slotOffset block index) sizeofDirEntry).drop 4 := by
    have first := Mem.read_write mem (geo.slotOffset block index) (encodeWord 4 id)
    rw [length_encodeWord] at first
    rw [show sizeofDirEntry = 4 + 12 from rfl, Mem.read_add, first,
      Mem.read_write_disjoint (.inr (by rw [length_encodeWord])), Mem.read_add,
      List.drop_left' Mem.length_read]
  rw [entryAt, split, DirEntry.decode_patchId fits, entryAt]

theorem entryAt_write_other {bytes : List UInt8} {other place : Nat}
    (short : bytes.length ≤ sizeofDirEntry) (inBlock : index < geo.perBlock)
    (otherInBlock : place < geo.perBlock) (different : ¬ (other = block ∧ place = index)) :
    geo.entryAt (mem.write (geo.slotOffset block index) bytes) other place =
      geo.entryAt mem other place := by
  have disjoint := slotOffset_disjoint otherInBlock inBlock different
  rw [entryAt, Mem.read_write_disjoint (by omega), entryAt]

end Geometry

structure Counted (superBlock : SuperBlock) (files : Nat → Option (List UInt8))
    (count : Nat) : Prop where
  bounds : ∀ id, files id ≠ none →
    superBlock.minFileId ≤ id ∧ (id : Int) ≤ superBlock.maxFileId
  attained : (∃ id, files id ≠ none) →
    (∃ id, files id ≠ none ∧ superBlock.minFileId = (id : Nat)) ∧
      ∃ id, files id ≠ none ∧ superBlock.maxFileId = (id : Nat)
  empty : (∀ id, files id = none) →
    superBlock.minFileId = 0 ∧ superBlock.maxFileId = 0
  count : superBlock.fileCount = count

structure Represents (sfs : Segment) (geo : Geometry)
    (files : Nat → Option (List UInt8)) (free : Nat) (chain : Nat → List Extent) :
    Prop where
  mounted : Mounted sfs geo
  freeBlock : sfs.superBlock.freeBlockNum = free
  free_ge : geo.fileStart ≤ free
  free_le : free = geo.fileStart ∨ free ≤ geo.dirStart
  placed : Probing.WellPlaced 0 geo.dirCount geo.perBlock geo.probes (geo.ids sfs.mem)
  blank : ∀ block < geo.dirCount, ∀ index < geo.perBlock,
    geo.ids sfs.mem block index = 0 → geo.entryAt sfs.mem block index = ⟨0, 0, 0, 0⟩
  held : ∀ block < geo.dirCount, ∀ index < geo.perBlock,
    geo.ids sfs.mem block index ≠ 0 →
      ∃ content, files (geo.ids sfs.mem block index) = some content ∧
        Holds geo sfs.mem free (geo.entryAt sfs.mem block index)
          (chain (geo.ids sfs.mem block index)) content
  stored : ∀ id content, files id = some content → id ≠ 0 ∧ id < 2 ^ 31 ∧
    ∃ block < geo.dirCount, ∃ index < geo.perBlock, geo.ids sfs.mem block index = id
  unchained : ∀ id, files id = none → chain id = []
  apart : ∀ id other, id ≠ other → ∀ extent ∈ chain id, ∀ own ∈ chain other,
    extent.Apart own
  counted : Counted sfs.superBlock files (geo.usedSlots sfs.mem).length

namespace Represents

variable {sfs : Segment} {geo : Geometry} {files : Nat → Option (List UInt8)}
  {free : Nat} {chain : Nat → List Extent} {id : Nat} {content : List UInt8}

theorem search_stored (represents : Represents sfs geo files free chain)
    (stored : files id = some content) :
    ∃ block < geo.dirCount, ∃ index < geo.perBlock,
      geo.search sfs.mem id = .place block index ∧
      geo.ids sfs.mem block index = id ∧
      Holds geo sfs.mem free (geo.entryAt sfs.mem block index) (chain id) content := by
  obtain ⟨nonzero, _, block, inDir, index, inBlock, same⟩ :=
    represents.stored id content stored
  obtain ⟨held, isContent, holds⟩ := represents.held block inDir index inBlock
    (same ▸ nonzero)
  have found := represents.placed.found block inDir index inBlock (same ▸ nonzero)
  rw [same] at isContent holds found
  obtain rfl := Option.some.inj (isContent.symm.trans stored)
  exact ⟨block, inDir, index, inBlock, found, same, holds⟩

theorem search_absent (represents : Represents sfs geo files free chain)
    (absent : files id = none) {block index : Nat}
    (found : geo.search sfs.mem id = .place block index) :
    block < geo.dirCount ∧ index < geo.perBlock ∧
      geo.ids sfs.mem block index = 0 := by
  obtain ⟨inDir, stop⟩ := Probing.walk_eq_place found
  obtain ⟨stops, inBlock, _⟩ := Probing.stopInRow_eq_some.mp stop
  refine ⟨inDir, inBlock, ?_⟩
  by_contra nonzero
  rcases stops with zero | same
  · exact nonzero zero
  · obtain ⟨_, isContent, _⟩ := represents.held block inDir index inBlock nonzero
    rw [same, absent] at isContent
    cases isContent

theorem dirGetEntry_stored (represents : Represents sfs geo files free chain)
    (stored : files id = some content) :
    ∃ entry, dirGetEntry sfs id = some (.ok entry) ∧ entry.id = id ∧
      Holds geo sfs.mem free entry (chain id) content := by
  obtain ⟨block, inDir, index, inBlock, found, same, holds⟩ :=
    represents.search_stored stored
  have nonzero := (represents.stored id content stored).1
  have used : (geo.entryAt sfs.mem block index).id ≠ 0 := fun zero =>
    nonzero (same.symm.trans zero)
  refine ⟨geo.entryAt sfs.mem block index, ?_, same, holds⟩
  rw [dirGetEntry, represents.mounted.dirFindEntry id .find (Nat.zero_lt_of_lt inDir),
    found]
  simp [DirOp.outcome, DirOp.atEntry, used]

theorem sfsExistFile_stored (represents : Represents sfs geo files free chain)
    (stored : files id = some content) :
    ∃ entry, sfsExistFile sfs id = some (.ok entry) ∧ entry.id = id ∧
      Holds geo sfs.mem free entry (chain id) content := by
  have bounds := represents.counted.bounds id (by simp [stored])
  rw [sfsExistFile, if_pos ⟨bounds.1, bounds.2⟩]
  exact represents.dirGetEntry_stored stored

/-- A file that is not there is reported as such, unless a probe of its search
leaves the directory. -/
theorem sfsExistFile_absent (represents : Represents sfs geo files free chain)
    (absent : files id = none) :
    sfsExistFile sfs id = some (.error .fileNotExists) ∨
      (sfsExistFile sfs id = none ∧
        (geo.dirCount = 0 ∨ geo.search sfs.mem id = .outside)) := by
  rw [sfsExistFile]
  split
  case isFalse => exact .inl rfl
  case isTrue =>
    rcases Nat.eq_zero_or_pos geo.dirCount with noDir | hasDir
    · right
      rw [dirGetEntry, represents.mounted.dirFindEntry_none id .find noDir]
      exact ⟨rfl, .inl noDir⟩
    · rw [dirGetEntry, represents.mounted.dirFindEntry id .find hasDir]
      cases found : geo.search sfs.mem id with
      | outside => exact .inr ⟨rfl, .inr rfl⟩
      | exhausted => exact .inl rfl
      | place block index =>
        obtain ⟨_, _, isFree⟩ := represents.search_absent absent found
        rw [Geometry.ids] at isFree
        left
        simp [DirOp.outcome, DirOp.atEntry, isFree]

theorem sfsGetInfo_stored (represents : Represents sfs geo files free chain)
    (stored : files id = some content) :
    sfsGetInfo sfs id = some (.ok
      { minFileId := sfs.superBlock.minFileId
        maxFileId := sfs.superBlock.maxFileId
        fileCount := sfs.superBlock.fileCount
        fileSize := content.length }) := by
  obtain ⟨entry, found, _, holds⟩ := represents.sfsExistFile_stored stored
  have nonzero := (represents.stored id content stored).1
  rw [sfsGetInfo, if_neg nonzero, found]
  simp [holds.size]

theorem sfsGetInfo_absent (represents : Represents sfs geo files free chain)
    (absent : files id = none) (nonzero : id ≠ 0)
    (inside : sfsExistFile sfs id ≠ none) :
    sfsGetInfo sfs id = some (.error .fileNotExists) := by
  rcases represents.sfsExistFile_absent absent with missing | ⟨undefined, _⟩
  · rw [sfsGetInfo, if_neg nonzero, missing]
  · exact absurd undefined inside

theorem firstExtent (represents : Represents sfs geo files free chain)
    {entry : DirEntry} {extents : List Extent}
    (holds : Holds geo sfs.mem free entry extents content) :
    (extents = [] ∧ firstExtent sfs entry = some (.ok (0, ⟨0, 0⟩))) ∨
    ∃ extent rest, extents = extent :: rest ∧
      Sfs.firstExtent sfs entry =
        some (.ok (extent.start, ⟨extent.count, headStart 0 rest⟩)) := by
  have first := holds.first
  cases extents with
  | nil =>
    left
    refine ⟨rfl, ?_⟩
    rw [headStart] at first
    rw [Sfs.firstExtent, if_pos first]
  | cons extent rest =>
    right
    have above := holds.above extent List.mem_cons_self
    have files := geo.files_behind_header
    simp only [superBlockCount] at files
    have whole : Holds geo sfs.mem free entry ([] ++ extent :: rest) content := holds
    have got := whole.fatGetEntry represents.mounted represents.freeBlock
    refine ⟨extent, rest, rfl, ?_⟩
    rw [headStart] at first
    rw [Sfs.firstExtent, first, if_neg (by omega), got]

theorem openFile_stored (represents : Represents sfs geo files free chain)
    (stored : files id = some content) :
    ∃ inode, openFile sfs id = some (.ok inode) ∧ inode.dirEntry.id = id ∧
      Holds geo sfs.mem free inode.dirEntry (chain id) content := by
  obtain ⟨entry, found, same, holds⟩ := represents.dirGetEntry_stored stored
  obtain ⟨block, fat, first⟩ : ∃ block fat,
      Sfs.firstExtent sfs entry = some (.ok (block, fat)) := by
    rcases represents.firstExtent holds with ⟨_, first⟩ | ⟨_, _, _, first⟩
    · exact ⟨_, _, first⟩
    · exact ⟨_, _, first⟩
  let extentEnd := fat.count * sfs.superBlock.blockSize.toNat
  refine ⟨
    { dirEntry := entry
      currFatEntry := fat
      sfsBlockNum := block
      offsetInSfsBlocks := 0
      endOfSfsBlocks := extentEnd
      fileSizeInSfsBlocks := if extentEnd > entry.size then entry.size else extentEnd },
    ?_, same, holds⟩
  simp only [openFile, found, first, extentEnd]

theorem sfsRead_stored (represents : Represents sfs geo files free chain)
    (stored : files id = some content) {offset : Nat} (bound : offset ≤ content.length)
    (size : Nat) :
    sfsRead sfs id offset size = some (.ok ((content.drop offset).take size)) := by
  obtain ⟨_, exists_, _, _⟩ := represents.sfsExistFile_stored stored
  obtain ⟨inode, opened, _, holds⟩ := represents.openFile_stored stored
  have nonzero := (represents.stored id content stored).1
  rw [sfsRead, if_neg (by omega), exists_]
  simp only [opened]
  rw [seekFileBegin]
  have inSize : ¬ offset > inode.dirEntry.size := by
    rw [holds.size]
    omega
  rcases represents.firstExtent holds with ⟨none_, first⟩ | ⟨extent, rest, same, first⟩
  · have empty : content = [] := by
      have bytes := holds.bytes
      rw [none_, fileBytes] at bytes
      exact bytes.symm
    subst empty
    obtain rfl : offset = 0 := by simpa using bound
    simp only [first, if_neg inSize]
    rw [seekFileBeginLoop, if_pos (Nat.zero_le _)]
    cases size <;> simp [readFileLoop, advanceExtent]
  · rw [same] at holds
    have whole : Holds geo sfs.mem free inode.dirEntry ([] ++ extent :: rest) content :=
      holds
    have start : content.drop 0 = fileBytes sfs.mem geo.blockSize
        (lastBlockFill content.length geo.blockSize) (extent :: rest) := by
      rw [List.drop_zero]
      exact holds.bytes.symm
    have cursor : Cursor geo inode.dirEntry extent rest
        { inode with
          sfsBlockNum := extent.start
          currFatEntry := ⟨extent.count, headStart 0 rest⟩
          endOfSfsBlocks := extent.count * sfs.superBlock.blockSize.toNat
          offsetInSfsBlocks := 0 } :=
      ⟨rfl, rfl, rfl, by rw [represents.mounted.shaped.blockSize, Int.toNat_natCast]⟩
    obtain ⟨front', extent', rest', inode', skip', split, sought, reading, dropped⟩ :=
      whole.seekFileBeginLoop represents.mounted represents.freeBlock cursor start
        (Nat.zero_le offset) bound (show offset < 0 + (offset + 1) by omega)
    rw [split] at whole
    simp only [first, if_neg inSize, sought]
    rw [whole.readFileLoop represents.mounted represents.freeBlock reading
      (Nat.lt_succ_self size), dropped]

theorem sfsRead_beyond (represents : Represents sfs geo files free chain)
    (stored : files id = some content) {offset : Nat} (beyond : content.length < offset)
    (size : Nat) : sfsRead sfs id offset size = some (.error .fail) := by
  obtain ⟨_, exists_, _, _⟩ := represents.sfsExistFile_stored stored
  obtain ⟨inode, opened, _, holds⟩ := represents.openFile_stored stored
  have nonzero := (represents.stored id content stored).1
  have past : offset > inode.dirEntry.size := by
    rw [holds.size]
    exact beyond
  rw [sfsRead, if_neg (by omega), exists_]
  simp only [opened]
  rw [seekFileBegin]
  rcases represents.firstExtent holds with ⟨_, first⟩ | ⟨_, _, _, first⟩
  · simp only [first, if_pos past]
  · simp only [first, if_pos past]

theorem sfsRead_absent (represents : Represents sfs geo files free chain)
    (absent : files id = none) (nonzero : id ≠ 0)
    (inside : sfsExistFile sfs id ≠ none) (offset size : Nat) :
    sfsRead sfs id offset size = some (.error .fileNotExists) := by
  rcases represents.sfsExistFile_absent absent with missing | ⟨undefined, _⟩
  · rw [sfsRead, if_neg (by omega), missing]
  · exact absurd undefined inside

end Represents

end Wisebot.Sfs
