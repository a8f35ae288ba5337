import Mathlib.Algebra.Order.BigOperators.Group.List
import Wisebot.Ifs.Segments

namespace Wisebot.Ifs

open Wisebot.Sfs hiding Ret

/-! `__move_file_segment` of `modules/mod_ifs/mod_ifs.c`, which copies the files of a full
segment into a new one. -/

def maxBufSize : Nat := 1 * 1024 * 1024

structure Chunk where
  readSize : Nat
  appendSize : Nat
  deriving DecidableEq, Repr

def moveFile (src : Sfs.Segment) (fileId : Nat) :
    (fuel : Nat) → Sfs.Segment → (offset : Nat) → Option (Ret × Sfs.Segment × List Chunk)
  | 0, _, _ => none
  | fuel + 1, dest, offset =>
    match sfsRead src fileId offset maxBufSize with
    | none => none
    | some (.error _) => some (.fail, dest, [])
    | some (.ok buf) =>
      if buf = [] then some (.success, dest, [])
      else
        match sfsAppend dest fileId buf with
        | none => none
        | some (.error _, dest) => some (.fail, dest, [])
        | some (.ok appendSize, dest) =>
          let chunk : Chunk := ⟨buf.length, appendSize⟩
          if appendSize ≠ buf.length then some (.fail, dest, [chunk])
          else if maxBufSize > buf.length then some (.success, dest, [chunk])
          else
            match moveFile src fileId fuel dest (offset + buf.length) with
            | none => none
            | some (ret, dest, chunks) => some (ret, dest, chunk :: chunks)

/-- The loop over the file array. -/
def moveFiles (src : Sfs.Segment) (fuel : Nat) :
    List Nat → Sfs.Segment → Option (Ret × Sfs.Segment × List Chunk)
  | [], dest => some (.success, dest, [])
  | fileId :: rest, dest =>
    match moveFile src fileId fuel dest 0 with
    | none => none
    | some (.fail, dest, chunks) => some (.fail, dest, chunks)
    | some (.success, dest, chunks) =>
      match moveFiles src fuel rest dest with
      | none => none
      | some (ret, dest, later) => some (ret, dest, chunks ++ later)

/-- From the copy of the directory on, with the totals of the chunks compared at the end. -/
def fillSegment (src dest : Sfs.Segment) (fuel : Nat) (fileArray : List Nat) :
    Option (Ret × Sfs.Segment × List Chunk) :=
  match sfsDirectoryCopy src dest with
  | none => none
  | some (.success, dest) =>
    match moveFiles src fuel fileArray dest with
    | none => none
    | some (.fail, dest, chunks) => some (.fail, dest, chunks)
    | some (.success, dest, chunks) =>
      if (chunks.map Chunk.readSize).sum ≠ (chunks.map Chunk.appendSize).sum then
        some (.fail, dest, chunks)
      else some (.success, dest, chunks)
  | some (_, dest) => some (.fail, dest, [])

/-- The two segments are different ones. The target is closed on every exit but the first one;
the chunks tell what was moved. -/
def moveFileSegment (fuel : Nat) (this : Segments) (fromSeg toSeg : Nat) (created : Bool) :
    Option (Ret × Segments × List Chunk) :=
  let src := this.sfs fromSeg
  if src.type = .unload then none
  else
    match sfsGetInfo src 0 with
    | none => none
    | some (.error _) => some (.fail, this, [])
    | some (.ok info) =>
      match sfsGetFileArray src with
      | none => none
      | some (.error _) => some (.fail, this.sfsDeactivate toSeg, [])
      | some (.ok fileArray) =>
        match this.sfsActivate toSeg .file true (oFat ||| oHashRootDir) created with
        | none => none
        | some (.fail, this) => some (.fail, this.sfsDeactivate toSeg, [])
        | some (.success, this) =>
          match fillSegment (this.sfs fromSeg) (this.sfs toSeg) fuel
            (fileArray.take info.fileCount.toNat) with
          | none => none
          | some (ret, dest, chunks) =>
            some (ret, (this.put toSeg dest).sfsDeactivate toSeg, chunks)

/-- A segment that takes over the files of another one: it has a part of each, in one extent. -/
structure Receiving (dest : Sfs.Segment) (geo : Geometry) (files : Nat → Option (List UInt8))
    (free : Nat) (chain : Nat → List Extent) : Prop where
  represents : Represents dest geo files free chain
  single : ∀ id, (chain id).length ≤ 1

section

variable {src dest : Sfs.Segment} {geo other : Geometry}
  {files destFiles : Nat → Option (List UInt8)} {free destFree : Nat}
  {chain destChain : Nat → List Extent} {id offset : Nat} {content : List UInt8}

theorem moveFile_moves (source : Represents src geo files free chain)
    (stored : files id = some content)
    (receiving : Receiving dest other destFiles destFree destChain)
    (moved : destFiles id = some (content.take offset)) (bound : offset ≤ content.length)
    (frontier : AtFrontier destFree (destChain id))
    (room : content.length - offset ≤ other.roomFor destFree (content.take offset))
    {fuel : Nat} (enough : content.length - offset < fuel) :
    ∃ dest' free' chain' chunks,
      moveFile src id fuel dest offset = some (.success, dest', chunks) ∧
      Receiving dest' other (Function.update destFiles id (some content)) free' chain' ∧
      dest'.io = dest.io ∧
      other.roomFor free' content + (content.length - offset) =
        other.roomFor destFree (content.take offset) ∧
      ∀ chunk ∈ chunks, chunk.appendSize = chunk.readSize := by
  induction fuel generalizing dest destFiles destFree destChain offset with
  | zero => omega
  | succ fuel induction =>
    obtain ⟨buf, isBuf⟩ : ∃ buf, buf = (content.drop offset).take maxBufSize := ⟨_, rfl⟩
    have length : buf.length = min maxBufSize (content.length - offset) := by
      rw [isBuf, List.length_take, List.length_drop]
    have joined : content.take offset ++ buf = content.take (offset + buf.length) := by
      rw [List.take_add, isBuf, List.length_take]
      congr 1
      rw [List.take_eq_take_iff]
      omega
    rw [moveFile, source.sfsRead_stored stored bound, ← isBuf]
    by_cases done : buf = []
    · have whole : content.take offset = content := by
        rw [done] at length
        simp only [List.length_nil, maxBufSize] at length
        exact List.take_of_length_le (by omega)
      have same : Function.update destFiles id (some content) = destFiles := by
        rw [← moved.trans (congrArg some whole), Function.update_eq_self]
      have rest : content.length - offset = 0 := by
        rw [done] at length
        simp only [List.length_nil, maxBufSize] at length
        omega
      refine ⟨dest, destFree, destChain, [], by simp only [done, if_true], ?_, rfl, ?_, by simp⟩
      · rwa [same]
      · rw [whole, rest, Nat.add_zero]
    · obtain ⟨next, free₁, chain₁, appended, filled, lengthened⟩ :=
        receiving.represents.sfsAppend_filled moved frontier
          (show buf.length ≤ other.roomFor destFree (content.take offset) by omega)
      have next_receiving : Receiving next other
          (Function.update destFiles id (some (content.take (offset + buf.length)))) free₁
            chain₁ := by
        refine ⟨joined ▸ filled.represents, ?_⟩
        intro file
        by_cases same : file = id
        · subst same
          exact lengthened.single frontier (receiving.single file)
        · rw [lengthened.others file same]
          exact receiving.single file
      have conserved := filled.room
      rw [joined] at conserved
      simp only [if_neg done, appended, ne_eq, not_true_eq_false, if_false]
      by_cases last : maxBufSize > buf.length
      · have whole : content.take (offset + buf.length) = content :=
          List.take_of_length_le (by omega)
        have rest : buf.length = content.length - offset := by omega
        rw [whole] at next_receiving conserved
        rw [rest] at conserved
        refine ⟨next, free₁, chain₁, _, if_pos last, next_receiving, filled.io, conserved, ?_⟩
        simp
      · have some_ : 0 < buf.length := List.length_pos_iff.mpr done
        obtain ⟨dest', free', chain', chunks, run, received, io, left, full⟩ :=
          induction next_receiving (Function.update_self ..)
            (show offset + buf.length ≤ content.length by omega) filled.frontier (by omega)
            (by omega)
        rw [Function.update_idem] at received
        refine ⟨dest', free', chain', ⟨buf.length, buf.length⟩ :: chunks, ?_, received,
          io.trans filled.io, ?_, ?_⟩
        · rw [if_neg last, run]
        · omega
        · intro chunk member
          rcases List.mem_cons.mp member with rfl | later
          · rfl
          · exact full chunk later

end

section

variable {src dest : Sfs.Segment} {geo : Geometry} {files destFiles : Nat → Option (List UInt8)}
  {free destFree : Nat} {chain destChain : Nat → List Extent}

theorem moveFiles_moves (source : Represents src geo files free chain) {fileArray : List Nat}
    (stored : ∀ id ∈ fileArray, files id ≠ none) (distinct : fileArray.Nodup)
    (receiving : Receiving dest geo destFiles destFree destChain)
    (blank : ∀ id ∈ fileArray, destFiles id = some [])
    (moved : ∀ id, id ∉ fileArray → destFiles id = files id)
    (room : (fileArray.map (geo.needed files)).sum * geo.blockSize ≤
      (geo.dirStart - destFree) * geo.blockSize)
    {fuel : Nat} (enough : ∀ id ∈ fileArray, (Represents.bytesOf files id).length < fuel) :
    ∃ dest' free' chain' chunks,
      moveFiles src fuel fileArray dest = some (.success, dest', chunks) ∧
      Receiving dest' geo files free' chain' ∧ dest'.io = dest.io ∧
      ∀ chunk ∈ chunks, chunk.appendSize = chunk.readSize := by
  induction fileArray generalizing dest destFiles destFree destChain with
  | nil =>
    have same : destFiles = files := funext fun id => moved id (by simp)
    exact ⟨dest, destFree, destChain, [], rfl, same ▸ receiving, rfl, by simp⟩
  | cons id rest induction =>
    obtain ⟨content, isContent⟩ :=
      Option.ne_none_iff_exists'.mp (stored id List.mem_cons_self)
    have bytes : Represents.bytesOf files id = content := by
      rw [Represents.bytesOf, isContent]
      rfl
    have needs : geo.needed files id = blocksFor content.length geo.blockSize := by
      rw [Geometry.needed, bytes]
    have isBlank := blank id List.mem_cons_self
    have nothing : destFiles id = some (content.take 0) := by
      rw [List.take_zero]
      exact isBlank
    have covered := geo.roomFor_add destFree content
    have whole : blocksFor content.length geo.blockSize * geo.blockSize = _ :=
      blocksFor_mul geo.blockSize_pos
    rw [List.map_cons, List.sum_cons, needs, Nat.add_mul] at room
    obtain ⟨next, free₁, chain₁, chunks, run, received, io₁, left, full⟩ :=
      moveFile_moves source isContent receiving nothing (Nat.zero_le _)
        (receiving.represents.atFrontier_nil isBlank) (by
          rw [List.take_zero, geo.roomFor_nil]
          omega)
        (by
          rw [← bytes]
          exact (Nat.sub_le _ _).trans_lt (enough id List.mem_cons_self))
    rw [List.take_zero, geo.roomFor_nil, Nat.sub_zero, geo.roomFor_add free₁] at left
    have notRest : id ∉ rest := (List.nodup_cons.mp distinct).1
    obtain ⟨dest', free', chain', later, ran, all, io', laterFull⟩ :=
      induction (fun file member => stored file (List.mem_cons_of_mem _ member))
        (List.nodup_cons.mp distinct).2 received
        (by
          intro file member
          rw [Function.update_of_ne fun same : file = id => notRest (same ▸ member)]
          exact blank file (List.mem_cons_of_mem _ member))
        (by
          intro file notLeft
          by_cases same : file = id
          · rw [same, Function.update_self, isContent]
          · rw [Function.update_of_ne same]
            exact moved file (by simp [same, notLeft]))
        (by omega) fun file member => enough file (List.mem_cons_of_mem _ member)
    refine ⟨dest', free', chain', chunks ++ later, ?_, all, io'.trans io₁, ?_⟩
    · simp only [moveFiles, run, ran]
    · intro chunk member
      rcases List.mem_append.mp member with front | back
      · exact full chunk front
      · exact laterFull chunk back

end

/-- The target has the files of the source, each in one extent. -/
structure MovedIn (source target : Sfs.Segment) : Prop where
  read : ∀ id < 2 ^ 31, ∀ offset size, sfsRead target id offset size = sfsRead source id offset size
  single : ∀ entry ∈ dirEntries target, ∃ extents, fileExtents target entry = some extents ∧
    extents.length = if entry.size = 0 then 0 else 1

section

variable {source target : Sfs.Segment} {geo : Geometry} {files : Nat → Option (List UInt8)}
  {free targetFree : Nat} {chain targetChain : Nat → List Extent}

theorem sfsRead_congr (represents : Represents source geo files free chain)
    (targetRepresents : Represents target geo files targetFree targetChain)
    (inside : geo.ProbesInside) {id : Nat} (small : id < 2 ^ 31) (offset size : Nat) :
    sfsRead target id offset size = sfsRead source id offset size := by
  rcases Nat.eq_zero_or_pos id with zero | positive
  · rw [sfsRead, if_pos (by omega), sfsRead, if_pos (by omega)]
  · cases stored : files id with
    | some content =>
      by_cases bound : offset ≤ content.length
      · rw [represents.sfsRead_stored stored bound, targetRepresents.sfsRead_stored stored bound]
      · rw [represents.sfsRead_beyond stored (Nat.lt_of_not_le bound),
          targetRepresents.sfsRead_beyond stored (Nat.lt_of_not_le bound)]
    | none =>
      have missing := represents.dirGetEntry_absent inside positive small stored
      have targetMissing := targetRepresents.dirGetEntry_absent inside positive small stored
      rw [← represents.sfsExistFile_eq inside positive small] at missing
      rw [← targetRepresents.sfsExistFile_eq inside positive small] at targetMissing
      rw [represents.sfsRead_absent stored (by omega) (by simp [missing]),
        targetRepresents.sfsRead_absent stored (by omega) (by simp [targetMissing])]

theorem Receiving.movedIn (represents : Represents source geo files free chain)
    (receiving : Receiving target geo files targetFree targetChain) (inside : geo.ProbesInside) :
    MovedIn source target where
  read := fun _ small offset size =>
    sfsRead_congr represents receiving.represents inside small offset size
  single := by
    intro entry member
    obtain ⟨content, _, holds⟩ := receiving.represents.of_mem_dirEntries member
    have length := receiving.single entry.id
    refine ⟨_, holds.fileExtents receiving.represents.mounted receiving.represents.freeBlock, ?_⟩
    have blocks := holds.blocks
    rw [length_blocks] at blocks
    rw [holds.size]
    cases extents : targetChain entry.id with
    | nil =>
      have empty : content = [] := by
        have bytes := holds.bytes
        rw [extents, fileBytes] at bytes
        exact bytes.symm
      rw [empty]
      rfl
    | cons extent rest =>
      rw [extents, List.length_cons] at length
      have nonempty := fileBytes_ne_nil target.mem geo.blockSize_pos
        (Holds.fill_pos geo content) holds.nonempty (by simp [extents])
      rw [holds.bytes] at nonempty
      rw [if_neg nonempty.ne', List.length_cons]
      omega

end

def newSegments (segmentSize blockSize : Int) : Segments :=
  ⟨segmentSize, blockSize, fun _ => newSegment⟩

end Wisebot.Ifs
