import Wisebot.Sfs.Extents

namespace Wisebot.Sfs

open Wisebot.Lib

/-! Seeking and reading inside one file. -/

structure Cursor (geo : Geometry) (entry : DirEntry) (extent : Extent)
    (rest : List Extent) (inode : Inode) : Prop where
  dirEntry : inode.dirEntry = entry
  block : inode.sfsBlockNum = extent.start
  fatEntry : inode.currFatEntry = ⟨extent.count, headStart 0 rest⟩
  end_eq : inode.endOfSfsBlocks = extent.count * geo.blockSize

/-- The inode stands `skip` bytes into the part of the extent that is in use. -/
structure ReadCursor (geo : Geometry) (entry : DirEntry) (fill : Nat)
    (extent : Extent) (rest : List Extent) (skip : Nat) (inode : Inode) : Prop
    extends Cursor geo entry extent rest inode where
  offset : inode.offsetInSfsBlocks = skip
  used : inode.fileSizeInSfsBlocks = usedIn geo.blockSize fill extent rest
  skip_le : skip ≤ usedIn geo.blockSize fill extent rest

section

variable {sfs : Segment} {geo : Geometry} {free : Nat} {entry : DirEntry}
  {content : List UInt8}

theorem Holds.seekFileBeginLoop (mounted : Mounted sfs geo)
    (freeBlock : sfs.superBlock.freeBlockNum = free)
    {front rest : List Extent} {extent : Extent}
    (holds : Holds geo sfs.mem free entry (front ++ extent :: rest) content)
    {skip offset fuel : Nat} {inode : Inode}
    (cursor : Cursor geo entry extent rest inode)
    (tail : content.drop skip = fileBytes sfs.mem geo.blockSize
      (lastBlockFill content.length geo.blockSize) (extent :: rest))
    (skipped : skip ≤ offset) (bound : offset ≤ content.length)
    (enough : offset < skip + fuel) :
    ∃ front' extent' rest' inode' skip',
      front ++ extent :: rest = front' ++ extent' :: rest' ∧
      Sfs.seekFileBeginLoop sfs offset fuel skip inode = some (.ok inode') ∧
      ReadCursor geo entry (lastBlockFill content.length geo.blockSize)
        extent' rest' skip' inode' ∧
      content.drop offset = (fileBytes sfs.mem geo.blockSize
        (lastBlockFill content.length geo.blockSize) (extent' :: rest')).drop skip' := by
  induction fuel generalizing front extent rest skip inode with
  | zero => omega
  | succ fuel induction =>
    have nonempty := holds.nonempty extent (by simp)
    have used_le := usedIn_le rest (Holds.fill_le geo content) nonempty
    have length := congrArg List.length tail
    rw [List.length_drop, fileBytes, List.length_append, Mem.length_read] at length
    rw [Sfs.seekFileBeginLoop, cursor.end_eq]
    by_cases reached : offset ≤ extent.count * geo.blockSize + skip
    · rw [if_pos reached]
      refine ⟨front, extent, rest, _, offset - skip, rfl, rfl,
        ⟨⟨cursor.dirEntry, cursor.block, cursor.fatEntry, rfl⟩, rfl, ?_, ?_⟩, ?_⟩
      · show (if inode.dirEntry.size ≤ extent.count * geo.blockSize + skip then
          inode.dirEntry.size - skip else extent.count * geo.blockSize) = _
        rw [cursor.dirEntry, holds.size]
        cases rest with
        | nil =>
          rw [fileBytes, List.length_nil] at length
          rw [if_pos (by omega)]
          omega
        | cons next rest =>
          have more := fileBytes_ne_nil sfs.mem geo.blockSize_pos (Holds.fill_pos geo content)
            (fun other (member : other ∈ next :: rest) =>
              holds.nonempty other (by simp only [List.mem_append]; right; simp_all))
            (by simp)
          rw [usedIn_cons] at length ⊢
          rw [if_neg (by omega)]
      · cases rest with
        | nil =>
          rw [fileBytes, List.length_nil] at length
          omega
        | cons next rest =>
          rw [usedIn_cons]
          omega
      · rw [← tail, List.drop_drop]
        congr 1
        omega
    · rw [if_neg reached]
      cases rest with
      | nil =>
        rw [fileBytes, List.length_nil] at length
        omega
      | cons next rest =>
        have moved : Holds geo sfs.mem free entry
            ((front ++ [extent]) ++ next :: rest) content := by
          rwa [List.append_assoc, List.singleton_append]
        have got := moved.fatGetEntry mounted freeBlock
        have advance := Nat.mul_pos nonempty geo.blockSize_pos
        simp only [cursor.fatEntry, cursor.dirEntry, headStart, got]
        have nextCursor : Cursor geo entry next rest
            { dirEntry := entry
              currFatEntry := ⟨next.count, headStart 0 rest⟩
              sfsBlockNum := next.start
              offsetInSfsBlocks := inode.offsetInSfsBlocks
              endOfSfsBlocks := next.count * sfs.superBlock.blockSize.toNat
              fileSizeInSfsBlocks := inode.fileSizeInSfsBlocks } :=
          ⟨rfl, rfl, rfl, by rw [mounted.shaped.blockSize, Int.toNat_natCast]⟩
        have nextTail : content.drop (skip + extent.count * geo.blockSize) =
            fileBytes sfs.mem geo.blockSize
              (lastBlockFill content.length geo.blockSize) (next :: rest) := by
          rw [← List.drop_drop, tail, fileBytes, usedIn_cons]
          exact List.drop_left' Mem.length_read
        obtain ⟨front', extent', rest', inode', skip', same, run, reading, dropped⟩ :=
          induction moved nextCursor nextTail (by omega) (by omega)
        rw [List.append_assoc, List.singleton_append] at same
        exact ⟨front', extent', rest', inode', skip', same, run, reading, dropped⟩

theorem headStart_eq_zero {extents : List Extent}
    (above : ∀ extent ∈ extents, geo.fileStart ≤ extent.start) :
    headStart 0 extents = 0 ↔ extents = [] := by
  cases extents with
  | nil => simp [headStart]
  | cons extent rest =>
    have bound := above extent List.mem_cons_self
    have files := geo.files_behind_header
    simp only [superBlockCount] at files
    simp only [headStart, reduceCtorEq, iff_false]
    omega

theorem Holds.advanceExtent (mounted : Mounted sfs geo)
    (freeBlock : sfs.superBlock.freeBlockNum = free)
    {front rest : List Extent} {extent : Extent}
    (holds : Holds geo sfs.mem free entry (front ++ extent :: rest) content)
    {skip : Nat} {inode : Inode}
    (cursor : ReadCursor geo entry (lastBlockFill content.length geo.blockSize)
      extent rest skip inode) :
    (Sfs.advanceExtent sfs inode = some (.ok none) ∧
      (fileBytes sfs.mem geo.blockSize (lastBlockFill content.length geo.blockSize)
        (extent :: rest)).drop skip = []) ∨
    ∃ front' extent' rest' skip' inode',
      front ++ extent :: rest = front' ++ extent' :: rest' ∧
      Sfs.advanceExtent sfs inode = some (.ok (some inode')) ∧
      ReadCursor geo entry (lastBlockFill content.length geo.blockSize)
        extent' rest' skip' inode' ∧
      (fileBytes sfs.mem geo.blockSize (lastBlockFill content.length geo.blockSize)
        (extent' :: rest')).drop skip' =
      (fileBytes sfs.mem geo.blockSize (lastBlockFill content.length geo.blockSize)
        (extent :: rest)).drop skip ∧
      (skip' = usedIn geo.blockSize (lastBlockFill content.length geo.blockSize)
        extent' rest' → rest' = []) := by
  have nonempty := holds.nonempty extent (by simp)
  have used_le := usedIn_le rest (Holds.fill_le geo content) nonempty
  have skip_le := cursor.skip_le
  rw [Sfs.advanceExtent, cursor.offset, cursor.end_eq]
  by_cases atEnd : skip = extent.count * geo.blockSize
  · rw [if_pos atEnd, cursor.fatEntry]
    cases rest with
    | nil =>
      left
      refine ⟨rfl, ?_⟩
      rw [fileBytes, fileBytes, List.append_nil]
      apply List.drop_eq_nil_of_le
      rw [Mem.length_read]
      omega
    | cons next rest =>
      right
      have moved : Holds geo sfs.mem free entry
          ((front ++ [extent]) ++ next :: rest) content := by
        rwa [List.append_assoc, List.singleton_append]
      have got := moved.fatGetEntry mounted freeBlock
      have linked : headStart 0 (next :: rest) ≠ 0 := by
        rw [ne_eq, headStart_eq_zero
          (fun other member => moved.above other (List.mem_append_right _ member))]
        simp
      have following : headStart 0 rest = 0 ↔ rest = [] :=
        headStart_eq_zero (fun other member => moved.above other
          (List.mem_append_right _ (List.mem_cons_of_mem _ member)))
      have nextPos := usedIn_pos rest geo.blockSize_pos (Holds.fill_pos geo content)
        (holds.nonempty next (by simp))
      rw [if_neg linked, cursor.dirEntry, headStart, got]
      refine ⟨front ++ [extent], next, rest, 0, _, by simp, rfl,
        ⟨⟨rfl, rfl, rfl, ?_⟩, rfl, ?_, Nat.zero_le _⟩, ?_, ?_⟩
      · simp only [mounted.shaped.blockSize, Int.toNat_natCast]
      · simp only [mounted.shaped.blockSize, Int.toNat_natCast, usedIn, following,
          holds.size]
      · rw [List.drop_zero]
        conv_rhs => rw [fileBytes, usedIn_cons, atEnd]
        exact (List.drop_left' Mem.length_read).symm
      · intro done
        omega
  · right
    rw [if_neg atEnd]
    refine ⟨front, extent, rest, skip, inode, rfl, rfl, cursor, rfl, ?_⟩
    intro done
    cases rest with
    | nil => rfl
    | cons next rest =>
      rw [usedIn_cons] at done
      exact absurd done atEnd

theorem readPiece {mem : Mem} {blockSize skip size : Nat} {extent : Extent}
    (fill : Nat) (rest : List Extent) (fits : skip + size ≤ usedIn blockSize fill extent rest) :
    mem.read (extent.start * blockSize + skip) size =
      ((fileBytes mem blockSize fill (extent :: rest)).drop skip).take size := by
  rw [fileBytes, List.drop_append_of_le_length (by rw [Mem.length_read]; omega),
    List.take_append_of_le_length (by rw [List.length_drop, Mem.length_read]; omega),
    Mem.read_slice mem _ fits]

theorem Holds.readFileLoop (mounted : Mounted sfs geo)
    (freeBlock : sfs.superBlock.freeBlockNum = free)
    {front rest : List Extent} {extent : Extent}
    (holds : Holds geo sfs.mem free entry (front ++ extent :: rest) content)
    {skip size fuel : Nat} {inode : Inode}
    (cursor : ReadCursor geo entry (lastBlockFill content.length geo.blockSize)
      extent rest skip inode) (enough : size < fuel) :
    Sfs.readFileLoop sfs fuel inode size =
      some (.ok (((fileBytes sfs.mem geo.blockSize
        (lastBlockFill content.length geo.blockSize) (extent :: rest)).drop skip).take
          size)) := by
  induction fuel generalizing front extent rest skip size inode with
  | zero => omega
  | succ fuel induction =>
    rw [Sfs.readFileLoop]
    by_cases done : size = 0
    · simp [done]
    · rw [if_neg done]
      rcases holds.advanceExtent mounted freeBlock cursor with
        ⟨stopped, nothing⟩ | ⟨front', extent', rest', skip', inode', same, moved,
          reading, left_, last⟩
      · simp [stopped, nothing]
      · rw [same] at holds
        rw [← left_]
        simp only [moved, reading.used, reading.offset, reading.block,
          mounted.shaped.blockSize, Int.toNat_natCast]
        have skip_le := reading.skip_le
        by_cases nothing : min (usedIn geo.blockSize
            (lastBlockFill content.length geo.blockSize) extent' rest' - skip')
              size = 0
        · obtain rfl := last (by omega)
          rw [if_pos nothing, fileBytes, fileBytes, List.append_nil,
            List.drop_eq_nil_of_le (by rw [Mem.length_read]; omega), List.take_nil]
        · have member : extent' ∈ front' ++ extent' :: rest' := by simp
          have within := holds.within member
          have used_le := usedIn_le rest' (Holds.fill_le geo content)
            (holds.nonempty extent' member)
          rw [Nat.add_mul] at within
          rw [if_neg nothing, mounted.sfsBlockRead (by omega) (by omega)]
          have rest := induction holds
            (show ReadCursor geo entry _ extent' rest' (skip' + min (usedIn
                geo.blockSize (lastBlockFill content.length geo.blockSize) extent'
                rest' - skip') size)
              { dirEntry := inode'.dirEntry
                currFatEntry := inode'.currFatEntry
                sfsBlockNum := extent'.start
                offsetInSfsBlocks := skip' + min (usedIn geo.blockSize
                  (lastBlockFill content.length geo.blockSize) extent' rest' - skip')
                    size
                endOfSfsBlocks := inode'.endOfSfsBlocks
                fileSizeInSfsBlocks := usedIn geo.blockSize
                  (lastBlockFill content.length geo.blockSize) extent' rest' } from
              ⟨⟨reading.dirEntry, rfl, reading.fatEntry, reading.end_eq⟩, rfl, rfl,
                by omega⟩)
            (show size - min (usedIn geo.blockSize
              (lastBlockFill content.length geo.blockSize) extent' rest' - skip')
                size < fuel by omega)
          simp only [rest]
          rw [readPiece (lastBlockFill content.length geo.blockSize) rest' (by omega), ← List.drop_drop, ← List.take_add]
          congr 4
          omega

end

end Wisebot.Sfs
