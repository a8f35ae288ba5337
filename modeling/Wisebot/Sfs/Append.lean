import Wisebot.Sfs.Growth

namespace Wisebot.Sfs

open Wisebot.Lib

/-! `__extend_block` and the loop of `__append_file`. -/

section

variable {base sfs : Segment} {geo : Geometry} {foreign : Extent → Prop}
  {free count : Nat} {file : DirEntry} {front : List Extent} {last : Extent}

namespace Growing

theorem addFirst (growing : Growing base geo foreign sfs free file [])
    (some : 0 < count) (room : free + count ≤ geo.dirStart) :
    Growing base geo foreign (putFat (moveFreeBlock sfs count) geo free ⟨count, 0⟩)
      (free + count) { file with firstBlockNum := free, lastBlockNum := free }
      [⟨free, count⟩] := by
  have above := growing.free_ge
  have bound := geo.blockCount_lt
  have dir_end := geo.dir_end
  simp only [countMaxBit] at bound
  refine
    { (growing.toAround.moveFreeBlock room).putFat ⟨count, 0⟩ (by omega)
        (fun extent other => ?_) (by omega) with
      laid :=
        { first := rfl
          last := rfl
          nonempty := by simpa using some
          above := by simpa using above
          below := by simp
          inFiles := by simpa using room
          apart := List.pairwise_singleton _ _
          chained := ?_ }
      apart := ?_ }
  · have below := growing.below extent other
    have nonempty := growing.nonempty extent other
    omega
  · rw [Chained]
    split
    case isTrue fat =>
      exact ⟨putFat_same fat (by simp only; omega) (by simp only; omega), trivial⟩
    case isFalse flat => simp
  · intro extent other own member
    obtain rfl := List.mem_singleton.mp member
    exact .inl (growing.below extent other)

theorem extendLast (growing : Growing base geo foreign sfs free file (front ++ [last]))
    (room : free + count ≤ geo.dirStart) (adjacent : last.start + last.count = free) :
    Growing base geo foreign
      (putFat (moveFreeBlock sfs count) geo last.start ⟨last.count + count, 0⟩)
      (free + count) file (front ++ [⟨last.start, last.count + count⟩]) := by
  have bound := geo.blockCount_lt
  have dir_end := geo.dir_end
  simp only [countMaxBit] at bound
  have member : last ∈ front ++ [last] := by simp
  have lastPos := growing.laid.nonempty last member
  have lastAbove := growing.laid.above last member
  have fronts : ∀ extent ∈ front, extent ∈ front ++ [last] := by
    intro extent own
    simp [own]
  have frontApart : ∀ extent ∈ front, extent.Apart last := fun extent own =>
    (List.pairwise_append.mp growing.laid.apart).2.2 extent own last (by simp)
  refine
    { (growing.toAround.moveFreeBlock room).putFat ⟨last.count + count, 0⟩ (by omega)
        (fun extent other => ?_) (by omega) with
      laid :=
        { first := ?_
          last := ?_
          nonempty := ?_
          above := ?_
          below := ?_
          inFiles := ?_
          apart := ?_
          chained := ?_ }
      apart := ?_ }
  · have apart := growing.apart extent other last member
    have nonempty := growing.nonempty extent other
    rcases apart with before | behind <;> omega
  · rw [growing.laid.first]
    cases front <;> rfl
  · rw [growing.laid.last]
    simp [lastStart]
  · intro extent own
    rcases List.mem_append.mp own with old | new
    · exact growing.laid.nonempty extent (fronts extent old)
    · obtain rfl := List.mem_singleton.mp new
      exact Nat.add_pos_left lastPos count
  · intro extent own
    rcases List.mem_append.mp own with old | new
    · exact growing.laid.above extent (fronts extent old)
    · obtain rfl := List.mem_singleton.mp new
      exact lastAbove
  · intro extent own
    rcases List.mem_append.mp own with old | new
    · exact (growing.laid.below extent (fronts extent old)).trans (Nat.le_add_right _ _)
    · obtain rfl := List.mem_singleton.mp new
      show last.start + (last.count + count) ≤ free + count
      omega
  · intro extent own
    rcases List.mem_append.mp own with old | new
    · exact growing.laid.inFiles extent (fronts extent old)
    · obtain rfl := List.mem_singleton.mp new
      show last.start + (last.count + count) ≤ geo.dirStart
      omega
  · refine List.pairwise_append.mpr
      ⟨(List.pairwise_append.mp growing.laid.apart).1, List.pairwise_singleton _ _, ?_⟩
    intro extent own other new
    obtain rfl := List.mem_singleton.mp new
    have below := growing.laid.below extent (fronts extent own)
    have nonempty := growing.laid.nonempty extent (fronts extent own)
    rcases frontApart extent own with before | behind
    · exact .inl before
    · omega
  · have chained := growing.laid.chained
    rw [Chained] at chained ⊢
    split
    case isTrue fat =>
      rw [if_pos fat] at chained
      obtain ⟨linked, _⟩ := linked_append.mp chained
      refine linked_append.mpr ⟨linked.congr ?_, ?_⟩
      · intro extent own
        have nonempty := growing.laid.nonempty extent (fronts extent own)
        refine putFat_other ?_
        rcases frontApart extent own with before | behind <;> omega
      · exact ⟨putFat_same fat (by simp only; omega) (by simp only; omega), trivial⟩
    case isFalse flat =>
      rw [if_neg flat] at chained
      simpa using chained
  · intro extent other own member
    rcases List.mem_append.mp member with old | new
    · exact growing.apart extent other own (fronts own old)
    · obtain rfl := List.mem_singleton.mp new
      have below := growing.below extent other
      have nonempty := growing.nonempty extent other
      rcases growing.apart extent other last (by simp) with before | behind
      · exact .inl before
      · omega

theorem linkNext (growing : Growing base geo foreign sfs free file (front ++ [last]))
    (fat : geo.fat = true) (some : 0 < count) (room : free + count ≤ geo.dirStart) :
    Growing base geo foreign
      (putFat (putFat (moveFreeBlock sfs count) geo last.start ⟨last.count, free⟩) geo
        free ⟨count, 0⟩)
      (free + count) { file with lastBlockNum := free }
      ((front ++ [last]) ++ [⟨free, count⟩]) := by
  have bound := geo.blockCount_lt
  have dir_end := geo.dir_end
  simp only [countMaxBit] at bound
  have member : last ∈ front ++ [last] := by simp
  have lastPos := growing.laid.nonempty last member
  have lastBelow := growing.laid.below last member
  have free_ge := growing.free_ge
  have fronts : ∀ extent ∈ front, extent ∈ front ++ [last] := by
    intro extent own
    simp [own]
  refine
    { ((growing.toAround.moveFreeBlock room).putFat ⟨last.count, free⟩ (by omega)
        (fun extent other => ?_) (by omega)).putFat ⟨count, 0⟩ (by omega)
        (fun extent other => ?_) (by omega) with
      laid :=
        { first := ?_
          last := ?_
          nonempty := ?_
          above := ?_
          below := ?_
          inFiles := ?_
          apart := ?_
          chained := ?_ }
      apart := ?_ }
  · have apart := growing.apart extent other last member
    have nonempty := growing.nonempty extent other
    rcases apart with before | behind <;> omega
  · have below := growing.below extent other
    have nonempty := growing.nonempty extent other
    omega
  · show file.firstBlockNum = _
    rw [growing.laid.first]
    cases front <;> rfl
  · simp [lastStart]
  · intro extent own
    rcases List.mem_append.mp own with old | new
    · exact growing.laid.nonempty extent old
    · obtain rfl := List.mem_singleton.mp new
      exact some
  · intro extent own
    rcases List.mem_append.mp own with old | new
    · exact growing.laid.above extent old
    · obtain rfl := List.mem_singleton.mp new
      exact growing.free_ge
  · intro extent own
    rcases List.mem_append.mp own with old | new
    · exact (growing.laid.below extent old).trans (Nat.le_add_right _ _)
    · obtain rfl := List.mem_singleton.mp new
      exact le_rfl
  · intro extent own
    rcases List.mem_append.mp own with old | new
    · exact growing.laid.inFiles extent old
    · obtain rfl := List.mem_singleton.mp new
      exact room
  · refine List.pairwise_append.mpr
      ⟨growing.laid.apart, List.pairwise_singleton _ _, ?_⟩
    intro extent own other new
    obtain rfl := List.mem_singleton.mp new
    exact .inl (growing.laid.below extent own)
  · have chained := growing.laid.chained
    rw [Chained, if_pos fat] at chained ⊢
    obtain ⟨linked, _⟩ := linked_append.mp chained
    refine linked_append.mpr ⟨linked_append.mpr ⟨linked.congr ?_, ?_, trivial⟩, ?_, trivial⟩
    · intro extent own
      have below := growing.laid.below extent (fronts extent own)
      have nonempty := growing.laid.nonempty extent (fronts extent own)
      have apart := (List.pairwise_append.mp growing.laid.apart).2.2 extent own last
        (by simp)
      rw [putFat_other (by omega), putFat_other
        (by rcases apart with before | behind <;> omega)]
      rfl
    · rw [putFat_other (by omega)]
      exact putFat_same fat (by simp only; omega) (by simp only; omega)
    · exact putFat_same fat (by simp only; omega) (by simp only; omega)
  · intro extent other own member
    rcases List.mem_append.mp member with old | new
    · exact growing.apart extent other own old
    · obtain rfl := List.mem_singleton.mp new
      exact .inl (growing.below extent other)

end Growing

/-- `__append_file` between two rounds: the inode stands behind the last byte
of the file, and no block of the file is without one. -/
inductive AtEnd (base : Segment) (geo : Geometry) (foreign : Extent → Prop)
    (sfs : Segment) (free : Nat) (inode : Inode) (content : List UInt8) : Prop
  | blank
      (growing : Growing base geo foreign sfs free inode.dirEntry [])
      (block : inode.sfsBlockNum = 0)
      (fatEntry : inode.currFatEntry = ⟨0, 0⟩)
      (offset : inode.offsetInSfsBlocks = 0)
      (end_eq : inode.endOfSfsBlocks = 0)
      (content_eq : content = [])
  | tail (front : List Extent) (last : Extent) (used : Nat)
      (growing : Growing base geo foreign sfs free inode.dirEntry (front ++ [last]))
      (tail : Tail geo sfs.mem front last used content inode)
      (filled : (last.count - 1) * geo.blockSize < used)

/-- New blocks, `count` of them, stand ready behind the last byte. -/
structure Extended (base : Segment) (geo : Geometry) (foreign : Extent → Prop)
    (sfs : Segment) (free : Nat) (inode : Inode) (content : List UInt8)
    (count : Nat) (front : List Extent) (last : Extent) (used : Nat) : Prop where
  growing : Growing base geo foreign sfs free inode.dirEntry (front ++ [last])
  tail : Tail geo sfs.mem front last used content inode
  new : used + count * geo.blockSize = last.count * geo.blockSize
  frontier : last.start + last.count = free

theorem Geometry.granted_bounds (geo : Geometry) {size : Nat} (some : 0 < size)
    (room : free < geo.dirStart) :
    0 < geo.granted free size ∧ free + geo.granted free size ≤ geo.dirStart ∧
      (geo.granted free size - 1) * geo.blockSize < size ∧
      (geo.granted free size * geo.blockSize < size →
        geo.granted free size = geo.dirStart - free) := by
  obtain ⟨positive, least, enough⟩ := getNeedBlock_bounds geo.blockSize_pos some
  have smaller : (geo.granted free size - 1) * geo.blockSize ≤
      (getNeedBlock size geo.blockSize - 1) * geo.blockSize := by
    apply Nat.mul_le_mul_right
    rw [Geometry.granted]
    omega
  refine ⟨?_, ?_, by omega, ?_⟩
  · rw [Geometry.granted]
    omega
  · rw [Geometry.granted]
    omega
  · intro short
    by_contra limited
    have full : geo.granted free size = getNeedBlock size geo.blockSize := by
      rw [Geometry.granted] at limited ⊢
      omega
    rw [full] at short
    omega

/-- The last extent reaches up to the free blocks, or there is none. -/
def Frontier (free : Nat) (inode : Inode) : Prop :=
  inode.sfsBlockNum = 0 ∨ inode.sfsBlockNum + inode.currFatEntry.count = free

variable {inode : Inode} {content : List UInt8} {size : Nat}

theorem AtEnd.extendBlock_full (atEnd : AtEnd base geo foreign sfs free inode content)
    (full : geo.dirStart ≤ free) (need : Nat) :
    extendBlock sfs inode need = some (.segmentFull, inode, sfs) := by
  have around : Around base geo foreign sfs free := by
    cases atEnd with
    | blank growing => exact growing.toAround
    | tail front last used growing => exact growing.toAround
  rw [extendBlock, around.mounted.fatAllocate_full _ need around.freeBlock full]

/-- With free blocks the file is extended, unless it has no table and is not
the last one. -/
theorem AtEnd.extendBlock (atEnd : AtEnd base geo foreign sfs free inode content)
    (room : free < geo.dirStart) (some_ : 0 < size)
    (full : inode.offsetInSfsBlocks = inode.endOfSfsBlocks) :
    (∃ inode' sfs' front last used,
      extendBlock sfs inode (getNeedBlock size geo.blockSize) =
        some (.success, inode', sfs') ∧
      Extended base geo foreign sfs' (free + geo.granted free size) inode' content
        (geo.granted free size) front last used ∧
      inode'.dirEntry.id = inode.dirEntry.id ∧
      inode'.dirEntry.size = inode.dirEntry.size) ∨
    (geo.fat = false ∧ ¬ Frontier free inode ∧
      extendBlock sfs inode (getNeedBlock size geo.blockSize) =
        some (.fail, inode, sfs)) := by
  obtain ⟨granted, fits, _, _⟩ := geo.granted_bounds some_ room
  have files := geo.files_behind_header
  simp only [superBlockCount] at files
  cases atEnd with
  | blank growing block fatEntry offset end_eq content_eq =>
    left
    have mounted := growing.toAround.mounted
    have free_ge := growing.free_ge
    have first : inode.dirEntry.firstBlockNum = 0 := growing.laid.first
    have allocated := mounted.fatAllocate_first ⟨0, 0⟩ size
      growing.toAround.freeBlock room free_ge
    refine ⟨
      { dirEntry := { inode.dirEntry with firstBlockNum := free, lastBlockNum := free }
        currFatEntry := ⟨geo.granted free size, 0⟩
        sfsBlockNum := free
        offsetInSfsBlocks := 0
        fileSizeInSfsBlocks := 0
        endOfSfsBlocks := geo.granted free size * geo.blockSize },
      _, [], ⟨free, geo.granted free size⟩, 0, ?_,
      ⟨growing.addFirst granted fits, ⟨rfl, rfl, rfl, rfl, Nat.zero_le _, ?_⟩,
        Nat.zero_add _, rfl⟩, rfl, rfl⟩
    · have different : free ≠ 0 := by omega
      simp only [Sfs.extendBlock, block, fatEntry, allocated, first, if_true,
        different, if_false, ne_eq, not_true_eq_false, and_false,
        mounted.shaped.blockSize, Int.toNat_natCast]
    · simp [content_eq, fullBytes]
  | tail front last used growing tail filled =>
    have mounted := growing.toAround.mounted
    have free_ge := growing.free_ge
    have member : last ∈ front ++ [last] := by simp
    have above := growing.laid.above last member
    have inFiles := growing.laid.inFiles last member
    have nonempty := growing.laid.nonempty last member
    have first : inode.dirEntry.firstBlockNum ≠ 0 := by
      rw [growing.laid.first]
      cases front with
      | nil =>
        show last.start ≠ 0
        omega
      | cons head front =>
        have headAbove := growing.laid.above head (by simp)
        show head.start ≠ 0
        omega
    have used_eq : used = last.count * geo.blockSize := by
      rw [tail.offset, tail.end_eq] at full
      exact full
    by_cases adjacent : last.start + last.count = free
    · left
      have allocated := mounted.fatAllocate_extend ⟨last.count, 0⟩ size
        growing.toAround.freeBlock room above adjacent
      refine ⟨
        { dirEntry := inode.dirEntry
          currFatEntry := ⟨last.count + geo.granted free size, 0⟩
          sfsBlockNum := last.start
          offsetInSfsBlocks := last.count * geo.blockSize
          fileSizeInSfsBlocks := last.count * geo.blockSize
          endOfSfsBlocks := (last.count + geo.granted free size) * geo.blockSize },
        _, front, ⟨last.start, last.count + geo.granted free size⟩,
        last.count * geo.blockSize, ?_,
        ⟨growing.extendLast fits adjacent, ⟨rfl, rfl, rfl, rfl, ?_, ?_⟩, ?_, ?_⟩,
        rfl, rfl⟩
      · simp only [Sfs.extendBlock, tail.block, tail.fatEntry, allocated, if_true,
          if_neg first, mounted.shaped.blockSize, Int.toNat_natCast]
      · exact Nat.mul_le_mul_right _ (Nat.le_add_right _ _)
      · have kept : ∀ extent ∈ front ++ [last],
            (putFat (moveFreeBlock sfs (geo.granted free size)) geo last.start
              ⟨last.count + geo.granted free size, 0⟩).mem.read
              (extent.start * geo.blockSize) (extent.count * geo.blockSize) =
            sfs.mem.read (extent.start * geo.blockSize)
              (extent.count * geo.blockSize) := fun extent own =>
          putFat_read (by have dir_end := geo.dir_end; omega)
            (Nat.mul_le_mul_right _ (growing.laid.above extent own))
        rw [tail.content, used_eq, kept last member,
          fullBytes_congr (fun extent own => kept extent (by simp [own]))]
      · rw [Nat.add_mul]
      · show last.start + (last.count + geo.granted free size) = _
        omega
    · cases fat : geo.fat with
      | true =>
        left
        have allocated := mounted.fatAllocate_link ⟨last.count, 0⟩ size
          growing.toAround.freeBlock room free_ge fat above (by omega) adjacent
        refine ⟨
          { dirEntry := { inode.dirEntry with lastBlockNum := free }
            currFatEntry := ⟨geo.granted free size, 0⟩
            sfsBlockNum := free
            offsetInSfsBlocks := 0
            fileSizeInSfsBlocks := 0
            endOfSfsBlocks := geo.granted free size * geo.blockSize },
          _, front ++ [last], ⟨free, geo.granted free size⟩, 0, ?_,
          ⟨growing.linkNext fat granted fits,
            ⟨rfl, rfl, rfl, rfl, Nat.zero_le _, ?_⟩, Nat.zero_add _, rfl⟩, rfl, rfl⟩
        · have different : free ≠ 0 := by omega
          simp only [Sfs.extendBlock, tail.block, tail.fatEntry, allocated,
            if_neg first, different, if_false, mounted.shaped.hasFat, fat,
            Bool.true_eq_false, false_and, mounted.shaped.blockSize,
            Int.toNat_natCast]
        · have kept : ∀ extent ∈ front ++ [last],
              (putFat (putFat (moveFreeBlock sfs (geo.granted free size)) geo
                last.start ⟨last.count, free⟩) geo free
                ⟨geo.granted free size, 0⟩).mem.read
                (extent.start * geo.blockSize) (extent.count * geo.blockSize) =
              sfs.mem.read (extent.start * geo.blockSize)
                (extent.count * geo.blockSize) := by
            intro extent own
            have start := Nat.mul_le_mul_right geo.blockSize
              (growing.laid.above extent own)
            have dir_end := geo.dir_end
            rw [putFat_read (by omega) start, putFat_read (by omega) start]
            rfl
          rw [tail.content, fullBytes_congr kept, used_eq]
          simp [fullBytes]
      | false =>
        right
        refine ⟨rfl, ?_, ?_⟩
        · rintro (zero | touching)
          · rw [tail.block] at zero
            omega
          · rw [tail.block, tail.fatEntry] at touching
            exact adjacent touching
        · rw [Sfs.extendBlock, tail.block, tail.fatEntry,
            mounted.fatAllocate_refused ⟨last.count, 0⟩ _
              growing.toAround.freeBlock room fat (by omega) adjacent]

/-- The bytes that still fit: the rest of the last block and the free blocks. -/
def Geometry.room (geo : Geometry) (free : Nat) (inode : Inode) : Nat :=
  (inode.endOfSfsBlocks - inode.offsetInSfsBlocks) +
    (geo.dirStart - free) * geo.blockSize

/-- What the loop of `__append_file` did with `buf`: it wrote `written` bytes
and stopped with `ret`. -/
structure Appended (base : Segment) (geo : Geometry) (foreign : Extent → Prop)
    (free : Nat) (inode : Inode) (content buf : List UInt8)
    (ret : Ret) (written : Nat) (inode' : Inode) (sfs' : Segment) (free' : Nat) :
    Prop where
  atEnd : AtEnd base geo foreign sfs' free' inode' (content ++ buf.take written)
  written_le : written ≤ buf.length
  id : inode'.dirEntry.id = inode.dirEntry.id
  size : inode'.dirEntry.size = inode.dirEntry.size
  room : geo.room free' inode' + written = geo.room free inode
  frontier : Frontier free inode → Frontier free' inode' ∧ ret ≠ .fail
  outcome : (ret = .success ∧ written = buf.length) ∨
    (ret = .segmentFull ∧ geo.room free' inode' = 0 ∧ written < buf.length) ∨
    (ret = .fail ∧ geo.fat = false)

variable {buf : List UInt8}

theorem Appended.step {inode₁ inode' : Inode} {sfs' : Segment}
    {free₁ free' count written : Nat} {ret : Ret}
    (rest : Appended base geo foreign free₁ inode₁ (content ++ buf.take count)
      (buf.drop count) ret written inode' sfs' free')
    (count_le : count ≤ buf.length)
    (id : inode₁.dirEntry.id = inode.dirEntry.id)
    (size : inode₁.dirEntry.size = inode.dirEntry.size)
    (room : geo.room free₁ inode₁ + count = geo.room free inode)
    (frontier : Frontier free inode → Frontier free₁ inode₁) :
    Appended base geo foreign free inode content buf ret (count + written) inode' sfs'
      free' where
  atEnd := by
    have joined : buf.take count ++ (buf.drop count).take written =
        buf.take (count + written) := List.take_add.symm
    have atEnd := rest.atEnd
    rwa [List.append_assoc, joined] at atEnd
  written_le := by
    have bound := rest.written_le
    rw [List.length_drop] at bound
    omega
  id := rest.id.trans id
  size := rest.size.trans size
  room := by
    have conserved := rest.room
    omega
  frontier := fun before => rest.frontier (frontier before)
  outcome := by
    have outcome := rest.outcome
    rw [List.length_drop] at outcome
    rcases outcome with ⟨done, all⟩ | ⟨full, none_, less⟩ | failed
    · exact .inl ⟨done, by omega⟩
    · exact .inr (.inl ⟨full, none_, by omega⟩)
    · exact .inr (.inr failed)

theorem Appended.rebase {inode₁ inode' : Inode} {sfs' : Segment}
    {free₁ free' written : Nat} {ret : Ret}
    (rest : Appended base geo foreign free₁ inode₁ content buf ret written inode' sfs'
      free')
    (id : inode₁.dirEntry.id = inode.dirEntry.id)
    (size : inode₁.dirEntry.size = inode.dirEntry.size)
    (room : geo.room free₁ inode₁ = geo.room free inode)
    (frontier : Frontier free inode → Frontier free₁ inode₁) :
    Appended base geo foreign free inode content buf ret written inode' sfs' free' :=
  { rest with
    id := rest.id.trans id
    size := rest.size.trans size
    room := rest.room.trans room
    frontier := fun before => rest.frontier (frontier before) }

/-- The bytes a round writes. -/
def Inode.writable (inode : Inode) (buf : List UInt8) : Nat :=
  min (inode.endOfSfsBlocks - inode.offsetInSfsBlocks) buf.length

/-- The inode behind `count` more bytes. -/
def Inode.behind (inode : Inode) (count : Nat) : Inode :=
  { inode with
    offsetInSfsBlocks := inode.offsetInSfsBlocks + count
    fileSizeInSfsBlocks := inode.offsetInSfsBlocks + count }

theorem Growing.writeRound {used : Nat} (buf : List UInt8)
    (growing : Growing base geo foreign sfs free inode.dirEntry (front ++ [last]))
    (tail : Tail geo sfs.mem front last used content inode)
    (filled : (last.count - 1) * geo.blockSize <
      used + min (last.count * geo.blockSize - used) buf.length) :
    ∃ sfs', Sfs.sfsBlockWrite sfs
        (inode.sfsBlockNum * geo.blockSize + inode.offsetInSfsBlocks : Nat)
        (buf.take (inode.writable buf)) = some (.success, sfs') ∧
      AtEnd base geo foreign sfs' free (inode.behind (inode.writable buf))
        (content ++ buf.take (inode.writable buf)) := by
  have used_le := tail.used_le
  have writable : inode.writable buf = min (last.count * geo.blockSize - used)
      buf.length := by
    rw [Inode.writable, tail.end_eq, tail.offset]
  have length : (buf.take (inode.writable buf)).length = inode.writable buf := by
    rw [List.length_take, writable]
    omega
  have fits : used + (buf.take (inode.writable buf)).length ≤
      last.count * geo.blockSize := by
    rw [length, writable]
    omega
  refine ⟨_, ?_, .tail front last (used + (buf.take (inode.writable buf)).length)
    (growing.write fits) ?_ ?_⟩
  · rw [tail.block, tail.offset]
    exact growing.sfsBlockWrite fits
  · have moved := growing.tail_write tail fits
    rw [length] at moved ⊢
    exact moved
  · rw [length, writable]
    exact filled

theorem AtEnd.appendFileLoop (atEnd : AtEnd base geo foreign sfs free inode content)
    {fuel : Nat} (enough : buf.length < fuel) (total : Nat) :
    ∃ ret written inode' sfs' free',
      Sfs.appendFileLoop fuel sfs inode total buf =
        some (ret, total + written, inode', sfs') ∧
      Appended base geo foreign free inode content buf ret written inode' sfs' free' := by
  induction fuel generalizing sfs free inode content buf total with
  | zero => omega
  | succ fuel induction =>
    have around : Around base geo foreign sfs free := by
      cases atEnd with
      | blank growing => exact growing.toAround
      | tail front last used growing => exact growing.toAround
    have blockSize : sfs.superBlock.blockSize.toNat = geo.blockSize := by
      rw [around.mounted.shaped.blockSize, Int.toNat_natCast]
    by_cases done : buf = []
    · subst done
      refine ⟨.success, 0, inode, sfs, free, by simp [Sfs.appendFileLoop],
        ⟨by simpa using atEnd, le_rfl, rfl, rfl, rfl, ?_, .inl ⟨rfl, rfl⟩⟩⟩
      exact fun frontier => ⟨frontier, nofun⟩
    · have some_ : 0 < buf.length := List.length_pos_iff.mpr done
      -- A round with room in its last extent is followed by the others.
      have finish : ∀ (inode₁ : Inode) (sfs₁ : Segment) (free₁ : Nat)
          (front : List Extent) (last : Extent) (used : Nat),
          Growing base geo foreign sfs₁ free₁ inode₁.dirEntry (front ++ [last]) →
          Tail geo sfs₁.mem front last used content inode₁ →
          used < last.count * geo.blockSize →
          (last.count - 1) * geo.blockSize <
            used + min (last.count * geo.blockSize - used) buf.length →
          ∃ sfs₂ ret written inode' sfs' free',
            Sfs.sfsBlockWrite sfs₁
              (inode₁.sfsBlockNum * geo.blockSize + inode₁.offsetInSfsBlocks : Nat)
              (buf.take (inode₁.writable buf)) = some (.success, sfs₂) ∧
            Sfs.appendFileLoop fuel sfs₂ (inode₁.behind (inode₁.writable buf))
              (total + inode₁.writable buf) (buf.drop (inode₁.writable buf)) =
                some (ret, total + written, inode', sfs') ∧
            Appended base geo foreign free₁ inode₁ content buf ret written inode' sfs'
              free' := by
        intro inode₁ sfs₁ free₁ front last used growing tail space filled
        have writable : inode₁.writable buf =
            min (last.count * geo.blockSize - used) buf.length := by
          rw [Inode.writable, tail.end_eq, tail.offset]
        obtain ⟨sfs₂, wrote, next⟩ := growing.writeRound buf tail filled
        obtain ⟨ret, written, inode', sfs', free', run, rest⟩ :=
          induction next (show (buf.drop (inode₁.writable buf)).length < fuel by
            rw [List.length_drop, writable]
            omega) (total + inode₁.writable buf)
        refine ⟨sfs₂, ret, inode₁.writable buf + written, inode', sfs', free', wrote,
          by rw [run, Nat.add_assoc],
          rest.step (by rw [writable]; omega) rfl rfl ?_ id⟩
        simp only [Geometry.room, Inode.behind, tail.end_eq, tail.offset, writable]
        omega
      rw [Sfs.appendFileLoop, if_neg done]
      simp only [blockSize]
      by_cases full : inode.offsetInSfsBlocks = inode.endOfSfsBlocks
      · rw [if_pos full]
        by_cases segmentFull : geo.dirStart ≤ free
        · rw [atEnd.extendBlock_full segmentFull]
          refine ⟨.segmentFull, 0, inode, sfs, free, rfl,
            ⟨by simpa using atEnd, Nat.zero_le _, rfl, rfl, rfl,
              fun frontier => ⟨frontier, nofun⟩, .inr (.inl ⟨rfl, ?_, some_⟩)⟩⟩
          simp [Geometry.room, full, Nat.sub_eq_zero_of_le segmentFull]
        · have room : free < geo.dirStart := Nat.lt_of_not_le segmentFull
          rcases atEnd.extendBlock room some_ full with
            ⟨inode₁, sfs₁, front, last, used, run, extended, sameId, sameSize⟩ |
            ⟨flat, notFrontier, run⟩
          · obtain ⟨granted, fits, small, _⟩ := geo.granted_bounds some_ room
            have new := extended.new
            have positive := geo.blockSize_pos
            have grantedBytes := Nat.le_mul_of_pos_left geo.blockSize granted
            have oneLess := Nat.sub_one_mul last.count geo.blockSize
            have grantedLess := Nat.sub_one_mul (geo.granted free buf.length)
              geo.blockSize
            obtain ⟨sfs₂, ret, written, inode', sfs', free', wrote, rest, appended⟩ :=
              finish inode₁ sfs₁ _ front last used extended.growing extended.tail
                (by omega) (by omega)
            have blockSize₁ : sfs₁.superBlock.blockSize.toNat = geo.blockSize := by
              rw [extended.growing.toAround.mounted.shaped.blockSize,
                Int.toNat_natCast]
            refine ⟨ret, written, inode', sfs', free', ?_,
              appended.rebase sameId sameSize ?_ ?_⟩
            · simp only [run]
              rw [Inode.writable] at wrote rest
              rw [wrote]
              exact rest
            · have split : (geo.dirStart - free) * geo.blockSize =
                  geo.granted free buf.length * geo.blockSize +
                    (geo.dirStart - (free + geo.granted free buf.length)) *
                      geo.blockSize := by
                rw [← Nat.add_mul]
                congr 1
                omega
              simp only [Geometry.room, extended.tail.end_eq, extended.tail.offset,
                full, split]
              omega
            · intro _
              right
              rw [extended.tail.block, extended.tail.fatEntry]
              exact extended.frontier
          · simp only [run]
            exact ⟨.fail, 0, inode, sfs, free, rfl,
              ⟨by simpa using atEnd, Nat.zero_le _, rfl, rfl, rfl,
                fun frontier => absurd frontier notFrontier,
                .inr (.inr ⟨rfl, flat⟩)⟩⟩
      · rw [if_neg full]
        cases atEnd with
        | blank growing block fatEntry offset end_eq content_eq =>
          exact absurd (offset.trans end_eq.symm) full
        | tail front last used growing tail filled =>
          have used_le := tail.used_le
          rw [tail.offset, tail.end_eq] at full
          obtain ⟨sfs₂, ret, written, inode', sfs', free', wrote, rest, appended⟩ :=
            finish inode sfs free front last used growing tail (by omega) (by omega)
          refine ⟨ret, written, inode', sfs', free', ?_, appended⟩
          rw [Inode.writable] at wrote rest
          simp only [wrote]
          exact rest

end

end Wisebot.Sfs
