import Wisebot.Sfs.Directory

namespace Wisebot.Sfs

open Wisebot.Lib

/-! A file as a chain of extents. -/

structure Extent where
  start : Nat
  count : Nat
  deriving DecidableEq

/-- The first block of a list of extents that is followed by block `next`. -/
def headStart (next : Nat) : List Extent → Nat
  | [] => next
  | extent :: _ => extent.start

def lastStart (extents : List Extent) : Nat :=
  (extents.getLast?.map Extent.start).getD 0

def Extent.Apart (first second : Extent) : Prop :=
  first.start + first.count ≤ second.start ∨ second.start + second.count ≤ first.start

theorem Extent.Apart.symm {first second : Extent} (apart : first.Apart second) :
    second.Apart first :=
  Or.symm apart

/-- The bytes of an extent that belong to the file: all of them unless the
extent is the last one, whose last block holds `fill` bytes. -/
def usedIn (blockSize fill : Nat) (extent : Extent) (rest : List Extent) : Nat :=
  if rest = [] then (extent.count - 1) * blockSize + fill
  else extent.count * blockSize

def fileBytes (mem : Mem) (blockSize fill : Nat) : List Extent → List UInt8
  | [] => []
  | extent :: rest =>
    mem.read (extent.start * blockSize) (usedIn blockSize fill extent rest) ++
      fileBytes mem blockSize fill rest

def fullBytes (mem : Mem) (blockSize : Nat) (extents : List Extent) : List UInt8 :=
  extents.flatMap fun extent =>
    mem.read (extent.start * blockSize) (extent.count * blockSize)

/-- The allocation table links each extent to the next one, the last to
block `next`. -/
def Linked (geo : Geometry) (mem : Mem) (next : Nat) : List Extent → Prop
  | [] => True
  | extent :: rest =>
    geo.fatAt mem extent.start = ⟨extent.count, headStart next rest⟩ ∧
      Linked geo mem next rest

def Chained (geo : Geometry) (mem : Mem) (extents : List Extent) : Prop :=
  if geo.fat then Linked geo mem 0 extents else extents.length ≤ 1

/-- The extents of a directory entry lie among the allocated file blocks. -/
structure Laid (geo : Geometry) (mem : Mem) (free : Nat) (entry : DirEntry)
    (extents : List Extent) : Prop where
  first : entry.firstBlockNum = headStart 0 extents
  last : entry.lastBlockNum = lastStart extents
  nonempty : ∀ extent ∈ extents, 0 < extent.count
  above : ∀ extent ∈ extents, geo.fileStart ≤ extent.start
  below : ∀ extent ∈ extents, extent.start + extent.count ≤ free
  inFiles : ∀ extent ∈ extents, extent.start + extent.count ≤ geo.dirStart
  apart : extents.Pairwise Extent.Apart
  chained : Chained geo mem extents

/-- A directory entry together with its extents holds a byte string. -/
structure Holds (geo : Geometry) (mem : Mem) (free : Nat) (entry : DirEntry)
    (extents : List Extent) (content : List UInt8) : Prop
    extends Laid geo mem free entry extents where
  size : entry.size = content.length
  bytes : fileBytes mem geo.blockSize (lastBlockFill content.length geo.blockSize)
    extents = content

section Fill

variable {size blockSize : Nat}

theorem lastBlockFill_pos (positive : 0 < blockSize) :
    0 < lastBlockFill size blockSize := by
  rw [lastBlockFill]
  split
  · exact positive
  · omega

theorem lastBlockFill_le (positive : 0 < blockSize) :
    lastBlockFill size blockSize ≤ blockSize := by
  rw [lastBlockFill]
  split
  · exact le_rfl
  · exact (Nat.mod_lt size positive).le

variable {fill : Nat} {extent : Extent} (rest : List Extent)

theorem usedIn_pos (positive : 0 < blockSize) (filled : 0 < fill)
    (nonempty : 0 < extent.count) : 0 < usedIn blockSize fill extent rest := by
  rw [usedIn]
  split
  · omega
  · exact Nat.mul_pos nonempty positive

theorem usedIn_le (bound : fill ≤ blockSize) (nonempty : 0 < extent.count) :
    usedIn blockSize fill extent rest ≤ extent.count * blockSize := by
  rw [usedIn]
  split
  · obtain ⟨count, same⟩ := Nat.exists_eq_add_of_le nonempty
    rw [same, Nat.add_sub_cancel_left, Nat.add_mul]
    omega
  · exact le_rfl

variable {rest}

theorem usedIn_cons (next : Extent) :
    usedIn blockSize fill extent (next :: rest) = extent.count * blockSize := by
  simp [usedIn]

end Fill

section Bytes

variable {mem other : Mem} {blockSize fill : Nat} {extents : List Extent}

theorem fileBytes_ne_nil (mem : Mem) (positive : 0 < blockSize) (filled : 0 < fill)
    (nonempty : ∀ extent ∈ extents, 0 < extent.count) (some : extents ≠ []) :
    0 < (fileBytes mem blockSize fill extents).length := by
  cases extents with
  | nil => exact absurd rfl some
  | cons extent rest =>
    have used := usedIn_pos rest positive filled
      (nonempty extent List.mem_cons_self)
    simp only [fileBytes, List.length_append, Mem.length_read]
    omega

theorem fileBytes_congr (bound : fill ≤ blockSize)
    (nonempty : ∀ extent ∈ extents, 0 < extent.count)
    (same : ∀ extent ∈ extents,
      other.read (extent.start * blockSize) (extent.count * blockSize) =
        mem.read (extent.start * blockSize) (extent.count * blockSize)) :
    fileBytes other blockSize fill extents = fileBytes mem blockSize fill extents := by
  induction extents with
  | nil => rfl
  | cons extent rest induction =>
    rw [fileBytes, fileBytes, induction
      (fun next member => nonempty next (List.mem_cons_of_mem _ member))
      (fun next member => same next (List.mem_cons_of_mem _ member))]
    congr 1
    have used := usedIn_le rest bound (nonempty extent List.mem_cons_self)
    have whole := same extent List.mem_cons_self
    have slice := congrArg (List.take (usedIn blockSize fill extent rest)) whole
    rwa [Mem.take_read _ _ used, Mem.take_read _ _ used] at slice

theorem fileBytes_append (front : List Extent) (last : Extent) :
    fileBytes mem blockSize fill (front ++ [last]) =
      fullBytes mem blockSize front ++
        mem.read (last.start * blockSize) ((last.count - 1) * blockSize + fill) := by
  induction front with
  | nil => simp [fileBytes, fullBytes, usedIn]
  | cons extent front induction =>
    have more : front ++ [last] ≠ [] := by simp
    simp only [List.cons_append, fileBytes, induction, fullBytes, List.flatMap_cons,
      usedIn, if_neg more, List.append_assoc]

theorem length_fullBytes (mem : Mem) (blockSize : Nat) (extents : List Extent) :
    ∃ blocks, (fullBytes mem blockSize extents).length = blocks * blockSize := by
  induction extents with
  | nil => exact ⟨0, by simp [fullBytes]⟩
  | cons extent rest induction =>
    obtain ⟨blocks, length⟩ := induction
    refine ⟨extent.count + blocks, ?_⟩
    rw [fullBytes] at length
    simp [fullBytes, length, Nat.add_mul]

theorem lastBlockFill_mul_add {blocks rest : Nat} (some : 0 < rest)
    (bound : rest ≤ blockSize) :
    lastBlockFill (blocks * blockSize + rest) blockSize = rest := by
  rw [lastBlockFill, Nat.mul_add_mod']
  rcases bound.lt_or_eq with less | rfl
  · rw [Nat.mod_eq_of_lt less, if_neg some.ne']
  · simp

theorem fileBytes_of_last {front : List Extent} {last : Extent} {used : Nat}
    {content : List UInt8} (above : (last.count - 1) * blockSize < used)
    (below : used ≤ (last.count - 1) * blockSize + blockSize)
    (holds : content = fullBytes mem blockSize front ++
      mem.read (last.start * blockSize) used) :
    fileBytes mem blockSize (lastBlockFill content.length blockSize)
      (front ++ [last]) = content := by
  obtain ⟨blocks, length⟩ := length_fullBytes mem blockSize front
  have size : content.length = (blocks + (last.count - 1)) * blockSize +
      (used - (last.count - 1) * blockSize) := by
    rw [holds, List.length_append, length, Mem.length_read, Nat.add_mul]
    omega
  rw [size, lastBlockFill_mul_add (by omega) (by omega), fileBytes_append, holds]
  congr 2
  omega

end Bytes

section Reading

variable {sfs : Segment} {geo : Geometry} {free : Nat} {entry : DirEntry}
  {extents : List Extent} {content : List UInt8}

theorem Linked.at {geo : Geometry} {mem : Mem} {front rest : List Extent}
    {extent : Extent} (linked : Linked geo mem 0 (front ++ extent :: rest)) :
    geo.fatAt mem extent.start = ⟨extent.count, headStart 0 rest⟩ := by
  induction front with
  | nil => exact linked.1
  | cons _ front induction => exact induction linked.2

theorem count_of_length {blockSize count : Nat} (positive : 0 < blockSize)
    (nonempty : 0 < count) {size : Nat}
    (length : size = (count - 1) * blockSize + lastBlockFill size blockSize) :
    (if size % blockSize = 0 then size / blockSize + 1 - 1
      else size / blockSize + 1) = count := by
  obtain ⟨rest, rfl⟩ := Nat.exists_eq_add_of_le' nonempty
  rw [Nat.add_sub_cancel] at length
  rw [lastBlockFill] at length
  split at length
  case isTrue whole =>
    rw [if_pos whole, Nat.add_sub_cancel, length, ← Nat.succ_mul,
      Nat.mul_div_cancel _ positive]
  case isFalse broken =>
    rw [if_neg broken]
    have divided : size / blockSize = rest := by
      rw [length, Nat.mul_comm, Nat.mul_add_div positive,
        Nat.div_eq_of_lt (Nat.mod_lt _ positive), Nat.add_zero]
    rw [divided]

namespace Holds

theorem fill_pos (geo : Geometry) (content : List UInt8) :
    0 < lastBlockFill content.length geo.blockSize :=
  lastBlockFill_pos geo.blockSize_pos

theorem fill_le (geo : Geometry) (content : List UInt8) :
    lastBlockFill content.length geo.blockSize ≤ geo.blockSize :=
  lastBlockFill_le geo.blockSize_pos

theorem within (holds : Holds geo sfs.mem free entry extents content)
    {extent : Extent} (member : extent ∈ extents) :
    sizeofSuperBlock ≤ extent.start * geo.blockSize ∧
      (extent.start + extent.count) * geo.blockSize ≤ geo.dirStart * geo.blockSize ∧
      geo.dirStart * geo.blockSize ≤ geo.blockCount * geo.blockSize := by
  refine ⟨?_, Nat.mul_le_mul_right _ (holds.inFiles extent member), ?_⟩
  · exact geo.header_le_files.trans
      (Nat.mul_le_mul_right _ (holds.above extent member))
  · apply Nat.mul_le_mul_right
    have last := geo.dir_end
    omega

theorem fatGetEntry (mounted : Mounted sfs geo)
    (freeBlock : sfs.superBlock.freeBlockNum = free)
    {front rest : List Extent} {extent : Extent}
    (holds : Holds geo sfs.mem free entry (front ++ extent :: rest) content) :
    fatGetEntry sfs entry extent.start = some (.ok ⟨extent.count, headStart 0 rest⟩) := by
  have member : extent ∈ front ++ extent :: rest := by simp
  have above := holds.above extent member
  have below := holds.below extent member
  have nonempty := holds.nonempty extent member
  have files := geo.files_behind_header
  rw [Sfs.fatGetEntry, if_neg (by omega), if_neg (by rw [freeBlock]; omega),
    readFatEntry, mounted.shaped.hasFat]
  cases fat : geo.fat with
  | true =>
    have linked := holds.chained
    rw [Chained, if_pos fat] at linked
    have bound : extent.start < geo.blockCount := by
      have inFiles := holds.inFiles extent member
      have last := geo.dir_end
      omega
    have behind := geo.header_le_fatOffset extent.start
    have before := Geometry.fatOffset_end fat bound
    have inside : geo.fileStart * geo.blockSize ≤ geo.blockCount * geo.blockSize :=
      Nat.mul_le_mul_right _ (by omega)
    have read := mounted.sfsBlockRead behind (before.trans inside)
    have entryAt := linked.at
    rw [Geometry.fatAt] at entryAt
    rw [if_pos rfl, fatEntryOffset_eq mounted.shaped, read]
    simp only [entryAt]
  | false =>
    have short := holds.chained
    rw [Chained, fat] at short
    simp only [Bool.false_eq_true, if_false, List.length_append,
      List.length_cons] at short
    obtain rfl : front = [] := List.length_eq_zero_iff.mp (by omega)
    obtain rfl : rest = [] := List.length_eq_zero_iff.mp (by omega)
    have size : content.length = (extent.count - 1) * geo.blockSize +
        lastBlockFill content.length geo.blockSize := by
      conv_lhs => rw [← holds.bytes]
      simp [fileBytes, usedIn]
    have count := count_of_length geo.blockSize_pos nonempty size
    have first := holds.first
    rw [List.nil_append, headStart] at first
    rw [if_neg Bool.false_ne_true]
    simp only [first, ne_eq, not_true_eq_false, if_false, mounted.shaped.blockSize,
      Int.toNat_natCast, holds.size, count, headStart]

end Holds

end Reading

end Wisebot.Sfs
