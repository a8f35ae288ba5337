import Wisebot.Sfs.Reading

namespace Wisebot.Sfs

open Wisebot.Lib

/-! `fat_allocate` on a mounted segment. -/

def putFat (sfs : Segment) (geo : Geometry) (num : Nat) (entry : FatEntry) : Segment :=
  { sfs with mem :=
      if geo.fat then sfs.mem.write (geo.fatOffset num) entry.encode else sfs.mem }

theorem Geometry.blockCount_lt (geo : Geometry) : geo.blockCount < 2 ^ countMaxBit - 1 := by
  have fits := geo.size_fits
  have header := geo.header_fits
  simp only [sizeofSuperBlock, superBlockCount] at header
  have bound : geo.blockCount * 36 ≤ geo.blockCount * geo.blockSize :=
    Nat.mul_le_mul_left _ (by omega)
  simp only [countMaxBit]
  omega

/-- The number of blocks taken for `size` more bytes. -/
def Geometry.granted (geo : Geometry) (free size : Nat) : Nat :=
  min (getNeedBlock size geo.blockSize) (geo.dirStart - free)

theorem getNeedBlock_bounds {size blockSize : Nat} (positive : 0 < blockSize)
    (some : 0 < size) :
    0 < getNeedBlock size blockSize ∧
      (getNeedBlock size blockSize - 1) * blockSize < size ∧
      size ≤ getNeedBlock size blockSize * blockSize := by
  have divided := Nat.div_add_mod' size blockSize
  have remainder := Nat.mod_lt size positive
  rw [getNeedBlock]
  split
  case isTrue broken =>
    refine ⟨Nat.succ_pos _, ?_, ?_⟩
    · rw [Nat.add_sub_cancel]
      omega
    · rw [Nat.add_mul]
      omega
  case isFalse whole =>
    rw [not_not] at whole
    have full : 0 < size / blockSize := by
      rcases Nat.eq_zero_or_pos (size / blockSize) with zero | positive
      · rw [zero] at divided
        omega
      · exact positive
    obtain ⟨rest, same⟩ := Nat.exists_eq_add_of_le' full
    rw [same] at divided ⊢
    rw [Nat.add_sub_cancel]
    rw [Nat.add_mul] at divided ⊢
    omega

section

variable {sfs : Segment} {geo : Geometry} {free : Nat}

theorem Mounted.moveFreeBlock (mounted : Mounted sfs geo) (count : Nat) :
    Mounted (moveFreeBlock sfs count) geo :=
  ⟨mounted.shaped.counters _ _ _ _ _, mounted.reliable⟩

theorem Mounted.putFat (mounted : Mounted sfs geo) (num : Nat) (entry : FatEntry) :
    Mounted (putFat sfs geo num entry) geo :=
  ⟨mounted.shaped, mounted.reliable⟩

theorem Mounted.writeFatEntry (mounted : Mounted sfs geo) {num : Nat}
    (above : geo.fileStart ≤ num) (below : num < geo.blockCount) (entry : FatEntry) :
    writeFatEntry sfs num entry = some (.success, Sfs.putFat sfs geo num entry) := by
  have files := geo.files_behind_header
  rw [Sfs.writeFatEntry, mounted.shaped.hasFat, Sfs.putFat]
  cases fat : geo.fat with
  | false => simp
  | true =>
    have before := Geometry.fatOffset_end fat below
    have inside : geo.fileStart * geo.blockSize ≤ geo.blockCount * geo.blockSize :=
      Nat.mul_le_mul_right _ (by omega)
    have written := mounted.sfsBlockWrite entry.encode
      (geo.header_le_fatOffset num) (by
        simp only [FatEntry.encode, List.length_append, length_encodeWord,
          sizeofFatEntry] at before ⊢
        omega)
    rw [if_pos rfl, if_pos rfl, if_neg (by omega), fatEntryOffset_eq mounted.shaped,
      written]

variable (entry : FatEntry) {before : Nat} (need : Nat)

theorem Mounted.fatAllocate_full (mounted : Mounted sfs geo)
    (freeBlock : sfs.superBlock.freeBlockNum = free) (full : geo.dirStart ≤ free) :
    fatAllocate sfs entry before need = some (.segmentFull, ⟨entry, ⟨0, 0⟩⟩, sfs) := by
  rw [fatAllocate, if_pos]
  rw [mounted.shaped.endFileBlock, freeBlock]
  omega

theorem Mounted.allocCount (mounted : Mounted sfs geo)
    (freeBlock : sfs.superBlock.freeBlockNum = free) (size : Nat) :
    min (min (getNeedBlock size geo.blockSize)
      (sfs.superBlock.endFileBlock - sfs.superBlock.freeBlockNum + 1).toNat)
      (2 ^ countMaxBit - 1) = geo.granted free size := by
  have bound := geo.blockCount_lt
  have last := geo.dir_end
  rw [mounted.shaped.endFileBlock, freeBlock, Geometry.granted]
  omega

section Granted

variable (size : Nat) (mounted : Mounted sfs geo)
  (freeBlock : sfs.superBlock.freeBlockNum = free) (room : free < geo.dirStart)

include mounted freeBlock room

theorem Mounted.fatAllocate_first (above : geo.fileStart ≤ free) :
    fatAllocate sfs entry 0 (getNeedBlock size geo.blockSize) =
      some (.success, ⟨⟨entry.count, free⟩, ⟨geo.granted free size, 0⟩⟩,
        Sfs.putFat (Sfs.moveFreeBlock sfs (geo.granted free size)) geo free
          ⟨geo.granted free size, 0⟩) := by
  have last := geo.dir_end
  have written := (mounted.moveFreeBlock (geo.granted free size)).writeFatEntry
    above (show free < geo.blockCount by omega) ⟨geo.granted free size, 0⟩
  rw [fatAllocate, if_neg (by rw [mounted.shaped.endFileBlock, freeBlock]; omega),
    mounted.allocCount freeBlock]
  simp only [freeBlock, ne_eq, not_true_eq_false, false_and, if_false, if_true,
    Int.toNat_natCast, written]

theorem Mounted.fatAllocate_extend (used : geo.fileStart ≤ before)
    (adjacent : before + entry.count = free) :
    fatAllocate sfs entry before (getNeedBlock size geo.blockSize) =
      some (.success, ⟨entry, ⟨entry.count + geo.granted free size, 0⟩⟩,
        Sfs.putFat (Sfs.moveFreeBlock sfs (geo.granted free size)) geo before
          ⟨entry.count + geo.granted free size, 0⟩) := by
  have last := geo.dir_end
  have bound := geo.blockCount_lt
  have files := geo.files_behind_header
  simp only [superBlockCount] at files
  have written := (mounted.moveFreeBlock (geo.granted free size)).writeFatEntry
    used (show before < geo.blockCount by omega)
    ⟨entry.count + geo.granted free size, 0⟩
  have justExtended : before ≠ 0 ∧ ((before + entry.count : Nat) : Int) = (free : Int) ∧
      entry.count < 2 ^ countMaxBit - 1 := ⟨by omega, by omega, by omega⟩
  have kept : min (geo.granted free size) (2 ^ countMaxBit - 1 - entry.count) =
      geo.granted free size := by
    rw [Geometry.granted]
    omega
  rw [fatAllocate, if_neg (by rw [mounted.shaped.endFileBlock, freeBlock]; omega),
    mounted.allocCount freeBlock, freeBlock]
  simp only [if_neg (fun refused => refused.2.2 justExtended :
    ¬ (before ≠ 0 ∧ sfs.superBlock.hasFat = false ∧ ¬ _)), if_pos justExtended, kept,
    written]

theorem Mounted.fatAllocate_link (above : geo.fileStart ≤ free)
    (fat : geo.fat = true) (used : geo.fileStart ≤ before) (inFiles : before < geo.dirStart)
    (apart : before + entry.count ≠ free) :
    fatAllocate sfs entry before (getNeedBlock size geo.blockSize) =
      some (.success, ⟨⟨entry.count, free⟩, ⟨geo.granted free size, 0⟩⟩,
        Sfs.putFat (Sfs.putFat (Sfs.moveFreeBlock sfs (geo.granted free size)) geo
          before ⟨entry.count, free⟩) geo free ⟨geo.granted free size, 0⟩) := by
  have last := geo.dir_end
  have files := geo.files_behind_header
  simp only [superBlockCount] at files
  have moved := mounted.moveFreeBlock (geo.granted free size)
  have linked := moved.writeFatEntry used (show before < geo.blockCount by omega)
    ⟨entry.count, free⟩
  have written := (moved.putFat before ⟨entry.count, free⟩).writeFatEntry
    above (show free < geo.blockCount by omega) ⟨geo.granted free size, 0⟩
  have notExtended : ¬ (before ≠ 0 ∧
      ((before + entry.count : Nat) : Int) = (free : Int) ∧
      entry.count < 2 ^ countMaxBit - 1) := by omega
  rw [fatAllocate, if_neg (by rw [mounted.shaped.endFileBlock, freeBlock]; omega),
    mounted.allocCount freeBlock, freeBlock]
  simp only [mounted.shaped.hasFat, fat, Bool.true_eq_false, false_and, and_false,
    if_false, notExtended, show before ≠ 0 by omega, linked, Int.toNat_natCast,
    written]

theorem Mounted.fatAllocate_refused (fat : geo.fat = false) (used : before ≠ 0)
    (apart : before + entry.count ≠ free) :
    fatAllocate sfs entry before need = some (.fail, ⟨entry, ⟨0, 0⟩⟩, sfs) := by
  have notExtended : ¬ (before ≠ 0 ∧
      ((before + entry.count : Nat) : Int) = (free : Int) ∧
      entry.count < 2 ^ countMaxBit - 1) := by omega
  rw [fatAllocate, if_neg (by rw [mounted.shaped.endFileBlock, freeBlock]; omega),
    freeBlock]
  exact if_pos ⟨used, mounted.shaped.hasFat.trans fat, notExtended⟩

end Granted

end

/-! A file that grows while the directory and the extents of the other files
stay as they were in a base segment. -/

structure Around (base : Segment) (geo : Geometry) (foreign : Extent → Prop)
    (sfs : Segment) (free : Nat) : Prop where
  type : sfs.type = base.type
  io : sfs.io = base.io
  superBlock : sfs.superBlock = { base.superBlock with freeBlockNum := free }
  shaped : Shaped base.superBlock geo
  reliable : base.io.Reliable
  free_ge : geo.fileStart ≤ free
  free_le : free = geo.fileStart ∨ free ≤ geo.dirStart
  dir : ∀ block index,
    geo.entryAt sfs.mem block index = geo.entryAt base.mem block index
  fat : geo.fat = true → ∀ extent, foreign extent →
    geo.fatAt sfs.mem extent.start = geo.fatAt base.mem extent.start
  bytes : ∀ extent, foreign extent →
    sfs.mem.read (extent.start * geo.blockSize) (extent.count * geo.blockSize) =
      base.mem.read (extent.start * geo.blockSize) (extent.count * geo.blockSize)
  above : ∀ extent, foreign extent → geo.fileStart ≤ extent.start
  below : ∀ extent, foreign extent → extent.start + extent.count ≤ free
  nonempty : ∀ extent, foreign extent → 0 < extent.count

structure Growing (base : Segment) (geo : Geometry) (foreign : Extent → Prop)
    (sfs : Segment) (free : Nat) (file : DirEntry) (extents : List Extent) : Prop
    extends Around base geo foreign sfs free where
  laid : Laid geo sfs.mem free file extents
  apart : ∀ extent, foreign extent → ∀ own ∈ extents, extent.Apart own

/-- The inode stands behind the last byte of the file, `used` bytes into its
last extent. -/
structure Tail (geo : Geometry) (mem : Mem) (front : List Extent) (last : Extent)
    (used : Nat) (content : List UInt8) (inode : Inode) : Prop where
  block : inode.sfsBlockNum = last.start
  fatEntry : inode.currFatEntry = ⟨last.count, 0⟩
  offset : inode.offsetInSfsBlocks = used
  end_eq : inode.endOfSfsBlocks = last.count * geo.blockSize
  used_le : used ≤ last.count * geo.blockSize
  content : content = fullBytes mem geo.blockSize front ++
    mem.read (last.start * geo.blockSize) used

theorem Extent.Apart.ranges {first second : Extent} (apart : first.Apart second)
    {blockSize skip count : Nat} (within : skip + count ≤ second.count * blockSize) :
    first.start * blockSize + first.count * blockSize ≤
        second.start * blockSize + skip ∨
      second.start * blockSize + skip + count ≤ first.start * blockSize := by
  rcases apart with before | behind
  · have ordered := Nat.mul_le_mul_right blockSize before
    rw [Nat.add_mul] at ordered
    omega
  · have ordered := Nat.mul_le_mul_right blockSize behind
    rw [Nat.add_mul] at ordered
    omega

theorem fullBytes_congr {mem other : Mem} {blockSize : Nat} {extents : List Extent}
    (same : ∀ extent ∈ extents,
      other.read (extent.start * blockSize) (extent.count * blockSize) =
        mem.read (extent.start * blockSize) (extent.count * blockSize)) :
    fullBytes other blockSize extents = fullBytes mem blockSize extents := by
  induction extents with
  | nil => rfl
  | cons extent rest induction =>
    have others := induction
      (fun next member => same next (List.mem_cons_of_mem _ member))
    rw [fullBytes, fullBytes] at others
    rw [fullBytes, fullBytes, List.flatMap_cons, List.flatMap_cons, others,
      same extent List.mem_cons_self]

theorem Linked.congr {geo : Geometry} {mem other : Mem} {next : Nat}
    {extents : List Extent} (linked : Linked geo mem next extents)
    (same : ∀ extent ∈ extents,
      geo.fatAt other extent.start = geo.fatAt mem extent.start) :
    Linked geo other next extents := by
  induction extents with
  | nil => trivial
  | cons extent rest induction =>
    exact ⟨(same extent List.mem_cons_self).trans linked.1,
      induction linked.2 (fun next member => same next (List.mem_cons_of_mem _ member))⟩

theorem linked_append {geo : Geometry} {mem : Mem} {next : Nat}
    {front rest : List Extent} :
    Linked geo mem next (front ++ rest) ↔
      Linked geo mem (headStart next rest) front ∧ Linked geo mem next rest := by
  induction front with
  | nil => simp [Linked]
  | cons extent front induction =>
    have head : headStart next (front ++ rest) = headStart (headStart next rest) front := by
      cases front <;> rfl
    simp only [List.cons_append, Linked, induction, head, and_assoc]

theorem Chained.congr {geo : Geometry} {mem other : Mem} {extents : List Extent}
    (chained : Chained geo mem extents)
    (same : geo.fat = true → ∀ extent ∈ extents,
      geo.fatAt other extent.start = geo.fatAt mem extent.start) :
    Chained geo other extents := by
  rw [Chained] at chained ⊢
  split
  case isTrue fat =>
    rw [if_pos fat] at chained
    exact chained.congr (same fat)
  case isFalse flat => rwa [if_neg flat] at chained

section

variable {base sfs : Segment} {geo : Geometry} {foreign : Extent → Prop}
  {free : Nat} {file : DirEntry} {extents : List Extent}

namespace Around

theorem mounted (around : Around base geo foreign sfs free) : Mounted sfs geo where
  shaped := by
    rw [around.superBlock]
    exact around.shaped.counters _ _ _ _ _
  reliable := by
    rw [around.io]
    exact around.reliable

theorem freeBlock (around : Around base geo foreign sfs free) :
    sfs.superBlock.freeBlockNum = free := by
  rw [around.superBlock]

theorem below_files (around : Around base geo foreign sfs free) {extent : Extent}
    (other : foreign extent) : extent.start + extent.count ≤ geo.dirStart := by
  have above := around.above extent other
  have below := around.below extent other
  have nonempty := around.nonempty extent other
  have bound := around.free_le
  omega

theorem write (around : Around base geo foreign sfs free) {start : Nat}
    {bytes : List UInt8} (above : geo.fileStart * geo.blockSize ≤ start)
    (below : start + bytes.length ≤ geo.dirStart * geo.blockSize)
    (disjoint : ∀ extent, foreign extent →
      extent.start * geo.blockSize + extent.count * geo.blockSize ≤ start ∨
        start + bytes.length ≤ extent.start * geo.blockSize) :
    Around base geo foreign { sfs with mem := sfs.mem.write start bytes } free :=
  { around with
    dir := fun block index =>
      (Geometry.entryAt_write_below below block index).trans (around.dir block index)
    fat := by
      intro fat extent other
      have bound := around.below_files other
      have nonempty := around.nonempty extent other
      have last := geo.dir_end
      exact (Geometry.fatAt_write_above fat above (by omega)).trans
        (around.fat fat extent other)
    bytes := fun extent other =>
      (Mem.read_write_disjoint (disjoint extent other)).trans
        (around.bytes extent other) }

end Around

theorem putFat_read {num : Nat} {entry : FatEntry} {start count : Nat}
    (bound : num < geo.blockCount) (above : geo.fileStart * geo.blockSize ≤ start) :
    (putFat sfs geo num entry).mem.read start count = sfs.mem.read start count := by
  rw [putFat]
  split
  case isTrue fat =>
    have before := Geometry.fatOffset_end fat bound
    apply Mem.read_write_disjoint
    right
    simp only [FatEntry.encode, List.length_append, length_encodeWord, sizeofFatEntry]
      at before ⊢
    omega
  case isFalse flat => rfl

theorem putFat_entryAt {num : Nat} {entry : FatEntry} (bound : num < geo.blockCount)
    (ordered : geo.fileStart ≤ geo.dirStart) (block index : Nat) :
    geo.entryAt (putFat sfs geo num entry).mem block index =
      geo.entryAt sfs.mem block index := by
  have start := geo.slotOffset_ge block index
  have areas := Nat.mul_le_mul_right geo.blockSize ordered
  rw [Geometry.entryAt, putFat_read bound (areas.trans start), Geometry.entryAt]

theorem putFat_other {num other : Nat} {entry : FatEntry} (different : other ≠ num) :
    geo.fatAt (putFat sfs geo num entry).mem other = geo.fatAt sfs.mem other := by
  rw [putFat]
  split
  · exact Geometry.fatAt_write_other different
  · rfl

theorem putFat_same {num : Nat} {entry : FatEntry} (fat : geo.fat = true)
    (countFits : entry.count < 2 ^ 32) (numFits : entry.num < 2 ^ 32) :
    geo.fatAt (putFat sfs geo num entry).mem num = entry := by
  rw [putFat, if_pos fat]
  exact Geometry.fatAt_write_same countFits numFits

theorem Around.putFat (around : Around base geo foreign sfs free) {num : Nat}
    (entry : FatEntry) (bound : num < geo.dirStart)
    (different : ∀ extent, foreign extent → extent.start ≠ num)
    (ordered : geo.fileStart ≤ geo.dirStart) :
    Around base geo foreign (putFat sfs geo num entry) free :=
  have inside : num < geo.blockCount := by
    have last := geo.dir_end
    omega
  { around with
    dir := fun block index =>
      (putFat_entryAt inside ordered block index).trans (around.dir block index)
    fat := fun fat extent other =>
      (putFat_other (different extent other)).trans (around.fat fat extent other)
    bytes := fun extent other =>
      (putFat_read inside
        (Nat.mul_le_mul_right _ (around.above extent other))).trans
        (around.bytes extent other) }

theorem Around.moveFreeBlock (around : Around base geo foreign sfs free) {count : Nat}
    (room : free + count ≤ geo.dirStart) :
    Around base geo foreign (moveFreeBlock sfs count) (free + count) :=
  { around with
    superBlock := by
      simp only [Sfs.moveFreeBlock, around.superBlock]
      push_cast
      rfl
    free_ge := around.free_ge.trans (Nat.le_add_right _ _)
    free_le := .inr room
    below := fun extent other =>
      (around.below extent other).trans (Nat.le_add_right _ _) }

namespace Growing

variable {front : List Extent} {last : Extent} {used : Nat} {content : List UInt8}
  {inode : Inode}

theorem lastWithin (growing : Growing base geo foreign sfs free file (front ++ [last])) :
    sizeofSuperBlock ≤ last.start * geo.blockSize ∧
      geo.fileStart * geo.blockSize ≤ last.start * geo.blockSize ∧
      last.start * geo.blockSize + last.count * geo.blockSize ≤
        geo.dirStart * geo.blockSize ∧
      geo.dirStart * geo.blockSize ≤ geo.blockCount * geo.blockSize := by
  have member : last ∈ front ++ [last] := by simp
  have above := Nat.mul_le_mul_right geo.blockSize (growing.laid.above last member)
  have below := Nat.mul_le_mul_right geo.blockSize (growing.laid.inFiles last member)
  have header := geo.header_le_files
  have inside : geo.dirStart * geo.blockSize ≤ geo.blockCount * geo.blockSize :=
    Nat.mul_le_mul_right _ (by have dir_end := geo.dir_end; omega)
  rw [Nat.add_mul] at below
  exact ⟨by omega, above, below, inside⟩

theorem sfsBlockWrite
    (growing : Growing base geo foreign sfs free file (front ++ [last]))
    {bytes : List UInt8} (fits : used + bytes.length ≤ last.count * geo.blockSize) :
    sfsBlockWrite sfs (last.start * geo.blockSize + used : Nat) bytes =
      some (.success, { sfs with
        mem := sfs.mem.write (last.start * geo.blockSize + used) bytes }) := by
  obtain ⟨header, _, below, inside⟩ := growing.lastWithin
  exact growing.toAround.mounted.sfsBlockWrite bytes (by omega) (by omega)

theorem write (growing : Growing base geo foreign sfs free file (front ++ [last]))
    {bytes : List UInt8} (fits : used + bytes.length ≤ last.count * geo.blockSize) :
    Growing base geo foreign { sfs with
      mem := sfs.mem.write (last.start * geo.blockSize + used) bytes } free file
        (front ++ [last]) := by
  obtain ⟨_, above, below, _⟩ := growing.lastWithin
  have member : last ∈ front ++ [last] := by simp
  refine
    { growing.toAround.write (by omega) (by omega) (fun extent other =>
        (growing.apart extent other last member).ranges fits) with
      laid := { growing.laid with chained := growing.laid.chained.congr ?_ }
      apart := growing.apart }
  intro fat extent own
  have bound := growing.laid.inFiles extent own
  have nonempty := growing.laid.nonempty extent own
  have dir_end := geo.dir_end
  exact Geometry.fatAt_write_above fat (by omega) (by omega)

theorem tail_write (growing : Growing base geo foreign sfs free file (front ++ [last]))
    (tail : Tail geo sfs.mem front last used content inode) {bytes : List UInt8}
    (fits : used + bytes.length ≤ last.count * geo.blockSize) :
    Tail geo (sfs.mem.write (last.start * geo.blockSize + used) bytes) front last
      (used + bytes.length) (content ++ bytes)
      { inode with
        offsetInSfsBlocks := inode.offsetInSfsBlocks + bytes.length
        fileSizeInSfsBlocks := inode.offsetInSfsBlocks + bytes.length } where
  block := tail.block
  fatEntry := tail.fatEntry
  offset := by rw [tail.offset]
  end_eq := tail.end_eq
  used_le := fits
  content := by
    have kept : fullBytes (sfs.mem.write (last.start * geo.blockSize + used) bytes)
        geo.blockSize front = fullBytes sfs.mem geo.blockSize front := by
      apply fullBytes_congr
      intro extent member
      have apart := (List.pairwise_append.mp growing.laid.apart).2.2 extent member last
        (by simp)
      exact Mem.read_write_disjoint (apart.ranges fits)
    have old : (sfs.mem.write (last.start * geo.blockSize + used) bytes).read
        (last.start * geo.blockSize) used =
        sfs.mem.read (last.start * geo.blockSize) used :=
      Mem.read_write_disjoint (.inl (by omega))
    rw [kept, Mem.read_add, old, Mem.read_write, ← List.append_assoc, ← tail.content]

theorem holds (growing : Growing base geo foreign sfs free file (front ++ [last]))
    (tail : Tail geo sfs.mem front last used content inode)
    (filled : (last.count - 1) * geo.blockSize < used) :
    Holds geo sfs.mem free { file with size := content.length } (front ++ [last])
      content where
  first := growing.laid.first
  last := growing.laid.last
  nonempty := growing.laid.nonempty
  above := growing.laid.above
  below := growing.laid.below
  inFiles := growing.laid.inFiles
  apart := growing.laid.apart
  chained := growing.laid.chained
  size := rfl
  bytes := by
    refine fileBytes_of_last filled ?_ tail.content
    have nonempty := growing.laid.nonempty last (by simp)
    obtain ⟨rest, same⟩ := Nat.exists_eq_add_of_le' nonempty
    have bound := tail.used_le
    rw [same, Nat.add_mul] at bound
    rw [same, Nat.add_sub_cancel]
    omega

end Growing

end

end Wisebot.Sfs
