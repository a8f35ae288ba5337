import Wisebot.Vrm.Records

namespace Wisebot.Vrm

open Lib

/-! Each key has the record of its last add, except when this is the first record of
the store: its place is block 0, offset 0, which is the entry of a missing key. -/

def Fresh (image : Image) : Prop :=
  ∀ block, image.allocatedBlocks < block → image.blocks block = fun _ => 0

/-- A file in which a process has mapped no block that is not there. -/
structure Ready (file : MmapFile) : Prop where
  fresh : Fresh file.image
  small : file.image.allocatedBlocks < maxBlockNum
  mapped : file.allocatedBlocks ≤ file.image.allocatedBlocks

def wholly (image : Image) : MmapFile := ⟨image, image.allocatedBlocks⟩

variable {image : Image} {file : MmapFile}

theorem extendFile_eq (fresh : Fresh image) : extendFile image = image := by
  have same : Function.update image.blocks (image.allocatedBlocks + 1)
      ((image.blocks (image.allocatedBlocks + 1)).write 0 [0]) = image.blocks := by
    rw [fresh (image.allocatedBlocks + 1) (Nat.lt_succ_self _)]
    funext block
    rcases eq_or_ne block (image.allocatedBlocks + 1) with rfl | other
    · rw [Function.update_self, fresh _ (Nat.lt_succ_self _)]
      funext address
      cases address with
      | zero => rfl
      | succ address => exact Mem.write_apply_outside (.inr (by simp))
    · exact Function.update_of_ne other _ _
  rw [extendFile, same]

theorem extendMmap_eq (small : file.image.allocatedBlocks < maxBlockNum)
    (mapped : file.allocatedBlocks ≤ file.image.allocatedBlocks) :
    extendMmap file = some (wholly file.image) := by
  rw [extendMmap]
  split
  · rw [if_neg (Nat.not_le.mpr small)]
    rfl
  · have all : file.allocatedBlocks = file.image.allocatedBlocks := by omega
    rw [wholly, ← all]

theorem fileOpen_eq (fresh : Fresh image) (small : image.allocatedBlocks < maxBlockNum) :
    fileOpen image = some (wholly image) := by
  rw [fileOpen, extendFile_eq fresh]
  exact extendMmap_eq small (by show (-1 : Int) ≤ image.allocatedBlocks; omega)

theorem extendCheck_eq (ready : Ready file) :
    extendCheck file = some (true, wholly file.image) := by
  have all : ¬ file.allocatedBlocks < file.image.allocatedBlocks →
      file = wholly file.image := by
    intro done
    have same : file.allocatedBlocks = file.image.allocatedBlocks := by
      have := ready.mapped
      omega
    rw [wholly, ← same]
  rw [extendCheck]
  split
  · rw [allocate, if_neg (by simp)]
    simp only [Bool.false_eq_true, if_false]
    split
    · rw [extendFile_eq ready.fresh, extendMmap_eq ready.small ready.mapped]
      rfl
    · next done => rw [← all done]
  · next done => rw [← all fun behind => done (.inl behind)]

theorem Fresh.nextBlock (fresh : Fresh image) : Fresh (nextBlock image) :=
  fun block behind => fresh block (Nat.lt_of_succ_lt behind)

theorem allocate_next (fresh : Fresh image) (small : image.allocatedBlocks + 1 < maxBlockNum) :
    allocate (wholly image) true = some (true, wholly (nextBlock image)) := by
  have behind : (image.allocatedBlocks : Int) < (nextBlock image).allocatedBlocks := by
    show (image.allocatedBlocks : Int) < (image.allocatedBlocks + 1 : Nat)
    omega
  have room : ¬ (true = true ∧ maxBlockNum ≤ (wholly image).image.allocatedBlocks) := by
    rintro ⟨-, full⟩
    have full : maxBlockNum ≤ image.allocatedBlocks := full
    omega
  rw [allocate, if_neg room]
  simp only [if_true, wholly, behind]
  rw [extendFile_eq fresh.nextBlock, extendMmap_eq small behind.le]
  rfl

theorem growIndex_eq (fresh : Fresh image) (small : image.allocatedBlocks < maxBlockNum)
    {currBlock : Nat} (fits : currBlock < maxBlockNum) {fuel : Nat}
    (enough : currBlock - image.allocatedBlocks < fuel) :
    ∃ grown, growIndex fuel currBlock (wholly image) = some (true, wholly grown) ∧
      grown.blocks = image.blocks ∧
      grown.allocatedBlocks = max image.allocatedBlocks currBlock := by
  induction fuel generalizing image with
  | zero => exact absurd enough (Nat.not_lt_zero _)
  | succ fuel induction =>
    rw [growIndex]
    split
    · next below =>
        have below : image.allocatedBlocks < currBlock := below
        rw [allocate_next fresh (by omega)]
        obtain ⟨grown, isGrown, blocks, allocated⟩ :=
          induction fresh.nextBlock (by show image.allocatedBlocks + 1 < maxBlockNum; omega)
            (by show currBlock - (image.allocatedBlocks + 1) < fuel; omega)
        have allocated : grown.allocatedBlocks = max (image.allocatedBlocks + 1) currBlock :=
          allocated
        exact ⟨grown, isGrown, blocks, by omega⟩
    · next done =>
        have done : ¬ image.allocatedBlocks < currBlock := done
        exact ⟨image, rfl, rfl, by omega⟩

/-- The record gets the next position of the last block or the begin of a new one. -/
theorem makeRoom_eq (fresh : Fresh image) (position : image.nextPosition ≤ maxBlockSize)
    {size : Nat} (fits : size + 4 ≤ maxBlockSize)
    (small : dataBlock image size < maxBlockNum) :
    ∃ roomy, makeRoom (wholly image) size = some (true, wholly roomy) ∧
      (roomy = image ∨ roomy = nextBlock image ∧ 0 < image.nextPosition) ∧
      roomy.nextPosition + 4 + size ≤ maxBlockSize ∧
      roomy.allocatedBlocks = dataBlock image size := by
  rw [makeRoom]
  rcases Nat.lt_or_ge (maxBlockSize - image.nextPosition) (size + 4) with full | room
  · rw [dataBlock, if_pos full] at small
    refine ⟨nextBlock image, ?_, .inr ⟨rfl, by omega⟩, ?_, ?_⟩
    · exact (if_pos ⟨position, full⟩).trans (allocate_next fresh small)
    · show 0 + 4 + size ≤ maxBlockSize
      omega
    · rw [dataBlock, if_pos full]
      rfl
  · have full : ¬ maxBlockSize - image.nextPosition < size + 4 := Nat.not_lt.mpr room
    refine ⟨image, ?_, .inl rfl, by omega, ?_⟩
    · exact if_neg fun both => full both.2
    · rw [dataBlock, if_neg full]

def withRecord (image : Image) (bytes : List UInt8) : Image :=
  { image with
    nextPosition := image.nextPosition + (4 + bytes.length)
    blocks := Function.update image.blocks image.allocatedBlocks
      ((image.blocks image.allocatedBlocks).write image.nextPosition
        (encodeWord 4 bytes.length ++ bytes)) }

def withEntry (image : Image) (key word : Nat) : Image :=
  { image with
    nextPosition := image.nextPosition + 4
    blocks := Function.update image.blocks (indexBlock key)
      ((image.blocks (indexBlock key)).write (indexOffset key) (encodeWord 4 word)) }

theorem vrmAdd_eq {vrm : VrmT} {key : Nat} {bytes : List UInt8} (index : Ready vrm.index)
    (data : Ready vrm.data) (position : vrm.data.image.nextPosition ≤ maxBlockSize)
    (fits : bytes.length + 4 ≤ maxBlockSize) (inIndex : indexBlock key < maxBlockNum)
    (inData : dataBlock vrm.data.image bytes.length < maxBlockNum) :
    ∃ roomy grown,
      vrmAdd vrm key bytes = some (true,
        ⟨wholly (withEntry grown key (blockInfo roomy.allocatedBlocks roomy.nextPosition)),
          wholly (withRecord roomy bytes)⟩) ∧
      (roomy = vrm.data.image ∨
        roomy = nextBlock vrm.data.image ∧ 0 < vrm.data.image.nextPosition) ∧
      roomy.nextPosition + 4 + bytes.length ≤ maxBlockSize ∧
      roomy.allocatedBlocks < maxBlockNum ∧
      grown.blocks = vrm.index.image.blocks ∧
      grown.allocatedBlocks = max vrm.index.image.allocatedBlocks (indexBlock key) := by
  obtain ⟨roomy, isRoomy, which, room, block⟩ := makeRoom_eq data.fresh position fits inData
  obtain ⟨grown, isGrown, blocks, allocated⟩ :=
    growIndex_eq index.fresh index.small inIndex
      (Nat.lt_succ_of_le (Nat.sub_le (indexBlock key) vrm.index.image.allocatedBlocks))
  refine ⟨roomy, grown, ?_, which, room, by omega, blocks, allocated⟩
  have isSaved : saveData (wholly roomy) bytes = some (wholly (withRecord roomy bytes)) := by
    rw [saveData, if_neg]
    · rfl
    · rintro (unmapped | outside)
      · exact absurd unmapped (lt_irrefl _)
      · exact absurd outside (Nat.not_lt.mpr room)
  have isEntered : ∀ word,
      saveIndex (wholly vrm.index.image) key word = some (wholly (withEntry grown key word)) := by
    intro word
    rw [saveIndex, isGrown]
    dsimp only
    rw [if_neg]
    · rfl
    · show ¬ (grown.allocatedBlocks : Int) < indexBlock key
      omega
  rw [vrmAdd, if_neg (by omega), extendCheck_eq index, extendCheck_eq data]
  simp only [Option.bind_some, Bool.true_eq_false, if_false, isRoomy, isSaved, isEntered,
    Option.map_some]
  rfl

theorem vrmRead_missing {vrm : VrmT} (index : Ready vrm.index) (data : Ready vrm.data) {key : Nat}
    (missing : getData ⟨wholly vrm.index.image, wholly vrm.data.image⟩ key = none) :
    vrmRead vrm key = some (none, ⟨wholly vrm.index.image, wholly vrm.data.image⟩) := by
  rw [vrmRead, extendCheck_eq index, extendCheck_eq data]
  simp only [Option.bind_some, Bool.true_eq_false, if_false, missing]

theorem vrmRead_found {vrm : VrmT} (index : Ready vrm.index) (data : Ready vrm.data)
    {key block offset : Nat}
    (found : getData ⟨wholly vrm.index.image, wholly vrm.data.image⟩ key = some (block, offset))
    (mapped : block ≤ vrm.data.image.allocatedBlocks) :
    vrmRead vrm key =
      some (some ((vrm.data.image.blocks block).read (offset + 4)
          (decodeWord ((vrm.data.image.blocks block).read offset 4))),
        ⟨wholly vrm.index.image, wholly vrm.data.image⟩) := by
  rw [vrmRead, extendCheck_eq index, extendCheck_eq data]
  simp only [Option.bind_some, Bool.true_eq_false, if_false, found]
  rw [if_neg]
  · rfl
  · show ¬ (vrm.data.image.allocatedBlocks : Int) < block
    omega

theorem blockInfo_lt (blockNum offset : Nat) : blockInfo blockNum offset < 256 ^ 4 := by
  simp only [blockInfo, maxBlockSizeBit]
  omega

theorem blockInfo_parts {blockNum offset : Nat} (inArray : blockNum < maxBlockNum)
    (inBlock : offset < maxBlockSize) :
    blockInfoBlockNum (blockInfo blockNum offset) = blockNum ∧
      blockInfoOffset (blockInfo blockNum offset) = offset := by
  simp only [maxBlockNum, maxBlockSize, maxBlockSizeBit] at inArray inBlock
  simp only [blockInfoBlockNum, blockInfoOffset, blockInfo, maxBlockSizeBit]
  omega

theorem entries_disjoint {key other : Nat} (different : other ≠ key)
    (sameBlock : indexBlock other = indexBlock key) :
    indexOffset other + 4 ≤ indexOffset key ∨ indexOffset key + 4 ≤ indexOffset other := by
  have split : maxBlockSize * indexBlock key + indexOffset key = key * 4 :=
    Nat.div_add_mod (key * 4) maxBlockSize
  have splitOther : maxBlockSize * indexBlock other + indexOffset other = other * 4 :=
    Nat.div_add_mod (other * 4) maxBlockSize
  rw [sameBlock] at splitOther
  omega

def entryOf (image : Image) (key : Nat) : Nat :=
  decodeWord ((image.blocks (indexBlock key)).read (indexOffset key) 4)

theorem entryOf_self (image : Image) (key blockNum offset : Nat) :
    entryOf (withEntry image key (blockInfo blockNum offset)) key =
      blockInfo blockNum offset := by
  have written := Mem.read_write (image.blocks (indexBlock key)) (indexOffset key)
    (encodeWord 4 (blockInfo blockNum offset))
  rw [length_encodeWord] at written
  rw [entryOf, withEntry]
  dsimp only
  rw [Function.update_self, written, decodeWord_encodeWord (blockInfo_lt blockNum offset)]

theorem entryOf_other (image : Image) {key other : Nat} (different : other ≠ key) (word : Nat) :
    entryOf (withEntry image key word) other = entryOf image other := by
  rw [entryOf, entryOf, withEntry]
  dsimp only
  rcases eq_or_ne (indexBlock other) (indexBlock key) with same | apart
  · have disjoint := entries_disjoint different same
    rw [same, Function.update_self, Mem.read_write_disjoint (by
      rw [length_encodeWord]
      exact disjoint)]
  · rw [Function.update_of_ne apart]

/-- What stands at a place of the data file, below the next position. -/
structure Record (image : Image) (block offset : Nat) (bytes : List UInt8) : Prop where
  present : block ≤ image.allocatedBlocks
  inBlock : offset + 4 + bytes.length ≤ maxBlockSize
  below : block = image.allocatedBlocks → offset + 4 + bytes.length ≤ image.nextPosition
  size : (image.blocks block).read offset 4 = encodeWord 4 bytes.length
  content : (image.blocks block).read (offset + 4) bytes.length = bytes

variable {block offset : Nat} {bytes : List UInt8}

theorem Record.read (record : Record image block offset bytes) :
    (image.blocks block).read (offset + 4)
      (decodeWord ((image.blocks block).read offset 4)) = bytes := by
  have small : bytes.length < 256 ^ 4 := by
    have inBlock := record.inBlock
    simp only [maxBlockSize, maxBlockSizeBit] at inBlock
    omega
  rw [record.size, decodeWord_encodeWord small]
  exact record.content

theorem Record.nextBlock (record : Record image block offset bytes) :
    Record (nextBlock image) block offset bytes where
  present := Nat.le_succ_of_le record.present
  inBlock := record.inBlock
  below := by
    intro same
    have same : block = image.allocatedBlocks + 1 := same
    have present := record.present
    omega
  size := record.size
  content := record.content

theorem Record.withRecord (record : Record image block offset bytes) (added : List UInt8) :
    Record (withRecord image added) block offset bytes := by
  have below := record.below
  rcases eq_or_ne block image.allocatedBlocks with same | apart
  · have before := below same
    refine ⟨record.present, record.inBlock, fun _ => ?_, ?_, ?_⟩
    · show offset + 4 + bytes.length ≤ image.nextPosition + (4 + added.length)
      omega
    · rw [Vrm.withRecord]
      dsimp only
      rw [← same, Function.update_self, Mem.read_write_disjoint (.inl (by omega))]
      exact record.size
    · rw [Vrm.withRecord]
      dsimp only
      rw [← same, Function.update_self, Mem.read_write_disjoint (.inl (by omega))]
      exact record.content
  · refine ⟨record.present, record.inBlock, fun same => absurd same apart, ?_, ?_⟩
    · rw [Vrm.withRecord]
      dsimp only
      rw [Function.update_of_ne apart]
      exact record.size
    · rw [Vrm.withRecord]
      dsimp only
      rw [Function.update_of_ne apart]
      exact record.content

theorem record_new (room : image.nextPosition + 4 + bytes.length ≤ maxBlockSize) :
    Record (withRecord image bytes) image.allocatedBlocks image.nextPosition bytes := by
  have written := Mem.read_write (image.blocks image.allocatedBlocks) image.nextPosition
    (encodeWord 4 bytes.length ++ bytes)
  rw [List.length_append, length_encodeWord, Mem.read_add] at written
  obtain ⟨size, content⟩ := List.append_inj written (by rw [Mem.length_read, length_encodeWord])
  refine ⟨le_rfl, room, fun _ => ?_, ?_, ?_⟩
  · exact (Nat.add_assoc image.nextPosition 4 bytes.length).le
  · rw [withRecord]
    dsimp only
    rw [Function.update_self]
    exact size
  · rw [withRecord]
    dsimp only
    rw [Function.update_self]
    exact content

theorem Fresh.withRecord (fresh : Fresh image) (bytes : List UInt8) :
    Fresh (withRecord image bytes) := by
  intro block behind
  have behind : image.allocatedBlocks < block := behind
  exact (Function.update_of_ne (Nat.ne_of_gt behind) _ _).trans (fresh block behind)

theorem Fresh.withEntry (fresh : Fresh image) {key : Nat}
    (present : indexBlock key ≤ image.allocatedBlocks) (word : Nat) :
    Fresh (withEntry image key word) := by
  intro block behind
  have behind : image.allocatedBlocks < block := behind
  exact (Function.update_of_ne (Nat.ne_of_gt (Nat.lt_of_le_of_lt present behind)) _ _).trans
    (fresh block behind)

structure Holds (store : Store) : Prop where
  indexFresh : Fresh store.index
  indexSmall : store.index.allocatedBlocks < maxBlockNum
  dataFresh : Fresh store.data
  dataSmall : store.data.allocatedBlocks < maxBlockNum
  position : store.data.nextPosition ≤ maxBlockSize
  mapped : ∀ process mapped, store.processes process = some mapped →
    mapped.1 ≤ store.index.allocatedBlocks ∧ mapped.2 ≤ store.data.allocatedBlocks
  empty : store.adds = [] ↔ store.data.allocatedBlocks = 0 ∧ store.data.nextPosition = 0
  absent : ∀ key, latest store.adds key = none → entryOf store.index key = 0
  stored : ∀ key bytes, latest store.adds key = some bytes →
    indexBlock key ≤ store.index.allocatedBlocks ∧ ∃ block offset,
      entryOf store.index key = blockInfo block offset ∧
      Record store.data block offset bytes ∧
      ((block = 0 ∧ offset = 0) ↔ LatestIsFirst store.adds key)

variable {store next : Store} {process key : Nat} {vrm : VrmT}

theorem start_holds : Holds start where
  indexFresh := fun _ _ => rfl
  indexSmall := by decide
  dataFresh := fun _ _ => rfl
  dataSmall := by decide
  position := Nat.zero_le _
  mapped := fun _ _ isOpen => by cases isOpen
  empty := by simp [start, created]
  absent := by
    intro key _
    show decodeWord (Mem.read (fun _ => 0) (indexOffset key) 4) = 0
    rfl
  stored := fun _ _ isLatest => by cases isLatest

theorem Holds.ready (holds : Holds store) (isOpen : store.handle process = some vrm) :
    (Ready vrm.index ∧ vrm.index.image = store.index) ∧
      Ready vrm.data ∧ vrm.data.image = store.data := by
  obtain ⟨mapped, isMapped, rfl⟩ := Option.map_eq_some_iff.mp isOpen
  obtain ⟨index, data⟩ := holds.mapped process mapped isMapped
  exact ⟨⟨⟨holds.indexFresh, holds.indexSmall, index⟩, rfl⟩,
    ⟨holds.dataFresh, holds.dataSmall, data⟩, rfl⟩

theorem Holds.leave (holds : Holds store) (process : Nat) :
    Holds (store.leave process ⟨wholly store.index, wholly store.data⟩) where
  indexFresh := holds.indexFresh
  indexSmall := holds.indexSmall
  dataFresh := holds.dataFresh
  dataSmall := holds.dataSmall
  position := holds.position
  mapped := by
    intro other mapped isMapped
    have isMapped : Function.update store.processes process
        (some ((store.index.allocatedBlocks : Int), (store.data.allocatedBlocks : Int))) other =
          some mapped := isMapped
    rw [Function.update_apply] at isMapped
    split at isMapped
    · obtain rfl := Option.some.inj isMapped
      exact ⟨le_rfl, le_rfl⟩
    · exact holds.mapped other mapped isMapped
  empty := holds.empty
  absent := holds.absent
  stored := holds.stored

theorem Holds.close (holds : Holds store) (process : Nat) :
    Holds { store with processes := Function.update store.processes process none } where
  indexFresh := holds.indexFresh
  indexSmall := holds.indexSmall
  dataFresh := holds.dataFresh
  dataSmall := holds.dataSmall
  position := holds.position
  mapped := by
    intro other mapped isMapped
    have isMapped : Function.update store.processes process none other = some mapped := isMapped
    rw [Function.update_apply] at isMapped
    split at isMapped
    · cases isMapped
    · exact holds.mapped other mapped isMapped
  empty := holds.empty
  absent := holds.absent
  stored := holds.stored

theorem Holds.getData (holds : Holds store) {bytes : List UInt8}
    (isLatest : latest store.adds key = some bytes) :
    ∃ block offset, Record store.data block offset bytes ∧
      (LatestIsFirst store.adds key →
        getData ⟨wholly store.index, wholly store.data⟩ key = none) ∧
      (¬ LatestIsFirst store.adds key →
        getData ⟨wholly store.index, wholly store.data⟩ key = some (block, offset)) := by
  obtain ⟨mapped, block, offset, entry, record, first⟩ := holds.stored key bytes isLatest
  obtain ⟨isBlock, isOffset⟩ : blockInfoBlockNum (entryOf store.index key) = block ∧
      blockInfoOffset (entryOf store.index key) = offset := by
    rw [entry]
    have inBlock := record.inBlock
    exact blockInfo_parts (Nat.lt_of_le_of_lt record.present holds.dataSmall) (by omega)
  have isMapped : ¬ (wholly store.index).allocatedBlocks < indexBlock key := by
    show ¬ (store.index.allocatedBlocks : Int) < indexBlock key
    omega
  refine ⟨block, offset, record, fun isFirst => ?_, fun notFirst => ?_⟩
  · rw [Vrm.getData, if_neg isMapped]
    have zeros : blockInfoBlockNum (entryOf store.index key) = 0 ∧
        blockInfoOffset (entryOf store.index key) = 0 := by
      rw [isBlock, isOffset]
      exact first.mpr isFirst
    exact if_pos zeros
  · rw [Vrm.getData, if_neg isMapped]
    have other : ¬ (blockInfoBlockNum (entryOf store.index key) = 0 ∧
        blockInfoOffset (entryOf store.index key) = 0) := by
      rw [isBlock, isOffset]
      exact fun zeros => notFirst (first.mp zeros)
    refine (if_neg other).trans ?_
    show some (blockInfoBlockNum (entryOf store.index key),
      blockInfoOffset (entryOf store.index key)) = some (block, offset)
    rw [isBlock, isOffset]

theorem Holds.getData_absent (holds : Holds store) (isAbsent : latest store.adds key = none) :
    Vrm.getData ⟨wholly store.index, wholly store.data⟩ key = none := by
  rw [Vrm.getData]
  split
  · rfl
  · have zeros : blockInfoBlockNum (entryOf store.index key) = 0 ∧
        blockInfoOffset (entryOf store.index key) = 0 := by
      rw [holds.absent key isAbsent]
      decide
    exact if_pos zeros

theorem latest_isSome_of_isFirst {adds : List (Nat × List UInt8)}
    (isFirst : LatestIsFirst adds key) : latest adds key ≠ none := by
  induction adds with
  | nil => cases isFirst
  | cons add older induction =>
    rw [LatestIsFirst] at isFirst
    rw [latest]
    split
    · exact Option.some_ne_none _
    · next other =>
        rw [if_neg other] at isFirst
        exact induction isFirst

theorem Holds.vrmRead (holds : Holds store) (isOpen : store.handle process = some vrm)
    (key : Nat) :
    ∃ answer, vrmRead vrm key = some (answer, ⟨wholly store.index, wholly store.data⟩) ∧
      (LatestIsFirst store.adds key → answer = none) ∧
      (¬ LatestIsFirst store.adds key → answer = latest store.adds key) := by
  obtain ⟨⟨index, isIndex⟩, data, isData⟩ := holds.ready isOpen
  cases isLatest : latest store.adds key with
  | none =>
    refine ⟨none, ?_, fun _ => rfl, fun _ => rfl⟩
    rw [← isIndex, ← isData]
    refine vrmRead_missing index data ?_
    rw [isIndex, isData]
    exact holds.getData_absent isLatest
  | some bytes =>
    obtain ⟨block, offset, record, first, later⟩ := holds.getData isLatest
    by_cases isFirst : LatestIsFirst store.adds key
    · refine ⟨none, ?_, fun _ => rfl, fun notFirst => absurd isFirst notFirst⟩
      rw [← isIndex, ← isData]
      refine vrmRead_missing index data ?_
      rw [isIndex, isData]
      exact first isFirst
    · refine ⟨some bytes, ?_, fun contra => absurd contra isFirst, fun _ => rfl⟩
      have found := later isFirst
      rw [← isIndex, ← isData] at found
      rw [vrmRead_found index data found (by rw [isData]; exact record.present), isIndex,
        isData, record.read]

/-- The store behind an add, for the file that has room and the index that has the block. -/
theorem Holds.withAdd (holds : Holds store) {roomy grown : Image} {key : Nat} {bytes : List UInt8}
    (which : roomy = store.data ∨ roomy = nextBlock store.data ∧ 0 < store.data.nextPosition)
    (room : roomy.nextPosition + 4 + bytes.length ≤ maxBlockSize)
    (small : roomy.allocatedBlocks < maxBlockNum) (inIndex : indexBlock key < maxBlockNum)
    (blocks : grown.blocks = store.index.blocks)
    (allocated : grown.allocatedBlocks = max store.index.allocatedBlocks (indexBlock key))
    (process : Nat) :
    Holds { store.leave process
        ⟨wholly (withEntry grown key (blockInfo roomy.allocatedBlocks roomy.nextPosition)),
          wholly (withRecord roomy bytes)⟩ with adds := (key, bytes) :: store.adds } := by
  have grownFresh : Fresh grown := by
    intro block behind
    rw [blocks]
    exact holds.indexFresh block (by omega)
  have roomyFresh : Fresh roomy := by
    rcases which with rfl | ⟨rfl, -⟩
    · exact holds.dataFresh
    · exact holds.dataFresh.nextBlock
  have entries : ∀ other, entryOf grown other = entryOf store.index other := by
    intro other
    rw [entryOf, entryOf, blocks]
  have notBelow : store.data.allocatedBlocks ≤ roomy.allocatedBlocks := by
    rcases which with rfl | ⟨rfl, -⟩
    · exact le_rfl
    · exact Nat.le_succ _
  have isFirst : store.adds = [] ↔ roomy.allocatedBlocks = 0 ∧ roomy.nextPosition = 0 := by
    rcases which with rfl | ⟨rfl, used⟩
    · exact holds.empty
    · rw [holds.empty]
      constructor
      · rintro ⟨-, unused⟩
        exact absurd unused (Nat.ne_of_gt used)
      · rintro ⟨none_, -⟩
        exact absurd none_ (Nat.succ_ne_zero _)
  exact
    { indexFresh := grownFresh.withEntry (by omega) _
      indexSmall := by
        show grown.allocatedBlocks < maxBlockNum
        have indexSmall := holds.indexSmall
        omega
      dataFresh := roomyFresh.withRecord bytes
      dataSmall := small
      position := by
        show roomy.nextPosition + (4 + bytes.length) ≤ maxBlockSize
        omega
      mapped := by
        intro other mapped isMapped
        have isMapped : Function.update store.processes process
            (some ((grown.allocatedBlocks : Int), (roomy.allocatedBlocks : Int))) other =
              some mapped := isMapped
        show mapped.1 ≤ grown.allocatedBlocks ∧ mapped.2 ≤ roomy.allocatedBlocks
        rw [Function.update_apply] at isMapped
        split at isMapped
        · obtain rfl := Option.some.inj isMapped
          exact ⟨le_rfl, le_rfl⟩
        · obtain ⟨inOld, inOldData⟩ := holds.mapped other mapped isMapped
          constructor <;> omega
      empty := by
        show (key, bytes) :: store.adds = [] ↔
          roomy.allocatedBlocks = 0 ∧ roomy.nextPosition + (4 + bytes.length) = 0
        simp
      absent := by
        intro other isAbsent
        have isAbsent : (if key = other then some bytes else latest store.adds other) = none :=
          isAbsent
        split at isAbsent
        · cases isAbsent
        · next different =>
            exact (entryOf_other grown (Ne.symm different) _).trans
              ((entries other).trans (holds.absent other isAbsent))
      stored := by
        intro other text isLatest
        have isLatest : (if key = other then some bytes else latest store.adds other) =
          some text := isLatest
        show indexBlock other ≤ grown.allocatedBlocks ∧ ∃ block offset,
          entryOf (withEntry grown key (blockInfo roomy.allocatedBlocks roomy.nextPosition))
            other = blockInfo block offset ∧
          Record (withRecord roomy bytes) block offset text ∧
          ((block = 0 ∧ offset = 0) ↔
            if key = other then store.adds = [] else LatestIsFirst store.adds other)
        split at isLatest
        · next same =>
            obtain rfl := Option.some.inj isLatest
            rw [← same]
            refine ⟨by omega, roomy.allocatedBlocks, roomy.nextPosition,
              entryOf_self _ _ _ _, record_new room, ?_⟩
            rw [if_pos rfl]
            exact isFirst.symm
        · next different =>
            obtain ⟨mapped, block, offset, entry, record, first⟩ :=
              holds.stored other text isLatest
            have kept : Record roomy block offset text := by
              rcases which with rfl | ⟨rfl, -⟩
              · exact record
              · exact record.nextBlock
            refine ⟨by omega, block, offset, ?_, kept.withRecord bytes, ?_⟩
            · exact (entryOf_other grown (Ne.symm different) _).trans
                ((entries other).trans entry)
            · rw [if_neg different]
              exact first }

theorem Holds.vrmAdd (holds : Holds store) (isOpen : store.handle process = some vrm)
    {bytes : List UInt8} (inside : Inside store (.vrmAdd process key bytes)) :
    ∃ after, vrmAdd vrm key bytes = some (true, after) ∧
      Holds { store.leave process after with adds := (key, bytes) :: store.adds } := by
  obtain ⟨⟨index, isIndex⟩, data, isData⟩ := holds.ready isOpen
  obtain ⟨fits, inIndex, inData⟩ := inside
  obtain ⟨roomy, grown, added, which, room, small, blocks, allocated⟩ :=
    vrmAdd_eq index data (by rw [isData]; exact holds.position) fits inIndex
      (by rw [isData]; exact inData)
  rw [isData] at which
  rw [isIndex] at blocks allocated
  exact ⟨_, added, holds.withAdd which room small inIndex blocks allocated process⟩

theorem Holds.step (holds : Holds store) {event : Event} (inside : Inside store event)
    (stepped : step store event = some next) : Holds next := by
  cases event with
  | vrmOpen process =>
    have indexOpened := fileOpen_eq holds.indexFresh holds.indexSmall
    have dataOpened := fileOpen_eq holds.dataFresh holds.dataSmall
    rw [Vrm.step, indexOpened, dataOpened] at stepped
    obtain rfl := Option.some.inj stepped
    exact holds.leave process
  | vrmClose process =>
    obtain ⟨vrm, -, rfl⟩ := Option.map_eq_some_iff.mp stepped
    exact holds.close process
  | vrmAdd process key bytes =>
    obtain ⟨vrm, isOpen, stepped⟩ := Option.bind_eq_some_iff.mp stepped
    obtain ⟨after, added, kept⟩ := holds.vrmAdd isOpen inside
    rw [added] at stepped
    obtain rfl := Option.some.inj stepped
    exact kept
  | vrmRead process key =>
    obtain ⟨vrm, isOpen, stepped⟩ := Option.bind_eq_some_iff.mp stepped
    obtain ⟨answer, read, -⟩ := holds.vrmRead isOpen key
    rw [read] at stepped
    obtain rfl := Option.some.inj stepped
    exact holds.leave process

/-- In a run of adds whose records are inside of the blocks a process that has the files
open reads for a key the record of its last add, just when this is not the first record
of the store; for a key that was never added a read fails; and an add inside of the
blocks returns `SUCCESS`. -/
theorem run_reads_latest (reached : Reach step Inside start store)
    (isOpen : store.handle process = some vrm) :
    (∀ key, ∃ answer next, vrmRead vrm key = some (answer, next) ∧
      (answer = latest store.adds key ↔ ¬ LatestIsFirst store.adds key)) ∧
    ∀ key bytes, Inside store (.vrmAdd process key bytes) →
      ∃ next, vrmAdd vrm key bytes = some (true, next) := by
  have holds : Holds store :=
    reached.invariant Holds start_holds fun _ _ _ holds inside stepped => holds.step inside stepped
  constructor
  · intro key
    obtain ⟨answer, read, first, later⟩ := holds.vrmRead isOpen key
    refine ⟨answer, _, read, ?_, later⟩
    intro delivered isFirst
    exact latest_isSome_of_isFirst isFirst (delivered.symm.trans (first isFirst))
  · intro key bytes inside
    obtain ⟨after, added, -⟩ := holds.vrmAdd isOpen inside
    exact ⟨after, added⟩

/-- Two processes: the second one replaces the record of the first one. -/
theorem run_reads_latest_two_processes :
    ∃ (store : Store) (vrm : VrmT), store.handle 0 = some vrm ∧ store.adds = [(5, [3, 2, 1]), (5, [1, 2])] ∧
      ∃ next, vrmRead vrm 5 = some (some [3, 2, 1], next) := by
  have added : ∃ store vrm, Reach step Inside start store ∧ store.handle 0 = some vrm ∧
      store.adds = [(5, [3, 2, 1]), (5, [1, 2])] :=
    ⟨_, _, (((Reach.start.step (.vrmOpen 0) trivial rfl).step (.vrmOpen 1) trivial rfl).step
      (.vrmAdd 0 5 [1, 2]) ⟨by decide, by decide, by decide⟩ rfl).step
      (.vrmAdd 1 5 [3, 2, 1]) ⟨by decide, by decide, by decide⟩ rfl,
      rfl, rfl⟩
  obtain ⟨store, vrm, reached, isOpen, adds⟩ := added
  obtain ⟨answer, next, read, exact_⟩ := (run_reads_latest reached isOpen).1 5
  have latest_ : answer = some [3, 2, 1] := by
    rw [exact_.mpr (by rw [adds]; exact List.cons_ne_nil _ _), adds]
    rfl
  exact ⟨store, vrm, isOpen, adds, next, by rw [read, latest_]⟩

/-- The first record of the store is not found. -/
theorem first_record_not_found :
    ∃ store vrm, Reach step Inside start store ∧ store.handle 0 = some vrm ∧
      latest store.adds 5 = some [1, 2] ∧ (vrmRead vrm 5).map Prod.fst = some none :=
  ⟨_, _, (Reach.start.step (.vrmOpen 0) trivial rfl).step (.vrmAdd 0 5 [1, 2])
    ⟨by decide, by decide, by decide⟩ rfl,
    rfl, rfl, by decide +kernel⟩

end Wisebot.Vrm
