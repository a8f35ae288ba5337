import Wisebot.Ifs.Store
import Wisebot.Sfs.Copying

namespace Wisebot.Ifs

open Wisebot.Sfs (Failure Geometry Represents)

/-! What a reader sees of the segments of a store. -/

abbrev Part : Type := Option (List UInt8)

def Part.size : Part → Except Failure Nat
  | none => .error .fileNotExists
  | some content => .ok content.length

def Part.read (part : Part) (offset size : Nat) : Except Failure (List UInt8) :=
  match part with
  | none => .error .fileNotExists
  | some content =>
    if offset ≤ content.length then .ok ((content.drop offset).take size) else .error .fail

section

variable {sfs : Sfs.Segment} {geo : Geometry} {files : Nat → Part} {free : Nat}
  {chain : Nat → List Sfs.Extent} {id : Nat} (represents : Represents sfs geo files free chain)
  (inside : geo.ProbesInside) (positive : 1 ≤ id) (small : id < 2 ^ 31)

include represents inside positive small

theorem sfsExistFile_ne_none (absent : files id = none) : Sfs.sfsExistFile sfs id ≠ none := by
  rw [represents.sfsExistFile_eq inside positive small,
    represents.dirGetEntry_absent inside positive small absent]
  simp

theorem sizeOfFile_eq : Store.sizeOfFile sfs id = some (files id).size := by
  have nonzero : id ≠ 0 := by omega
  rw [Store.sizeOfFile, if_neg nonzero]
  cases stored : files id with
  | none =>
    rw [represents.sfsGetInfo_absent stored nonzero
      (sfsExistFile_ne_none represents inside positive small stored)]
    rfl
  | some content =>
    rw [represents.sfsGetInfo_stored stored]
    rfl

theorem sfsRead_eq (offset size : Nat) :
    Sfs.sfsRead sfs id offset size = some ((files id).read offset size) := by
  cases stored : files id with
  | none =>
    exact represents.sfsRead_absent stored (by omega)
      (sfsExistFile_ne_none represents inside positive small stored) offset size
  | some content =>
    rw [Part.read]
    split
    · next bound => exact represents.sfsRead_stored stored bound size
    · next beyond => exact represents.sfsRead_beyond stored (Nat.lt_of_not_le beyond) size

end

/-- A file is the same in two segments, or it is missing in the first one and empty in the
second. -/
inductive SameFile (first second : Sfs.Segment) (fileId : Nat) : Prop where
  | same (size : Store.sizeOfFile second fileId = Store.sizeOfFile first fileId)
      (read : ∀ offset size,
        Sfs.sfsRead second fileId offset size = Sfs.sfsRead first fileId offset size)
  | added (missing : Store.sizeOfFile first fileId = some (.error .fileNotExists))
      (blank : Store.sizeOfFile second fileId = some (.ok 0))
      (missed : ∀ offset size,
        Sfs.sfsRead first fileId offset size = some (.error .fileNotExists))
      (read : ∀ size, Sfs.sfsRead second fileId 0 size = some (.ok []))

namespace Store

theorem getStartSegment_congr {sizeOf sizeOf' : Nat → Option (Except Failure Nat)}
    (sizes : ∀ p, sizeOf' p = sizeOf p ∨
      sizeOf p = some (.error .fileNotExists) ∧ sizeOf' p = some (.ok 0))
    (offset : Nat) (entries : List LogicalEntry) (totalSize startOffset : Nat) :
    getStartSegment sizeOf' offset entries totalSize startOffset =
      getStartSegment sizeOf offset entries totalSize startOffset := by
  induction entries generalizing totalSize startOffset with
  | nil => rfl
  | cons entry rest induction =>
    cases entry with
    | empty => rfl
    | notUse => exact induction totalSize startOffset
    | segment p =>
      rw [getStartSegment, getStartSegment]
      rcases sizes p with same | ⟨missing, blank⟩
      · simp only [same, induction]
      · simp only [missing, blank, if_true, induction]

theorem getStartSegment_found {sizeOf : Nat → Option (Except Failure Nat)} {offset : Nat}
    {entries found : List LogicalEntry} {totalSize startOffset start : Nat}
    (run : getStartSegment sizeOf offset entries totalSize startOffset =
      some (some (found, start))) :
    ∃ p rest size, found = .segment p :: rest ∧ sizeOf p = some (.ok size) ∧ 0 < size := by
  induction entries generalizing totalSize startOffset with
  | nil => cases run
  | cons entry rest induction =>
    cases entry with
    | empty => cases run
    | notUse => exact induction run
    | segment p =>
      rw [getStartSegment] at run
      split at run
      · cases run
      · exact induction run
      · cases run
      · next size isSize =>
        split_ifs at run with blank overflow ends
        · exact induction run
        · cases run
          exact ⟨p, rest, size, rfl, isSize, Nat.pos_of_ne_zero blank⟩
        · exact induction run

theorem readLoop_congr {read read' : (p offset size : Nat) → Option (Except Failure (List UInt8))}
    (reads : ∀ p, (∀ offset size, read' p offset size = read p offset size) ∨
      (∀ offset size, read p offset size = some (.error .fileNotExists)) ∧
        ∀ size, read' p 0 size = some (.ok []))
    {size : Nat} (entries : List LogicalEntry) {bytes : List UInt8}
    (unfinished : bytes.length ≠ size) :
    readLoop read' size entries 0 true bytes = readLoop read size entries 0 true bytes := by
  induction entries generalizing bytes with
  | nil => rfl
  | cons entry rest induction =>
    cases entry with
    | empty => rfl
    | notUse => exact induction unfinished
    | segment p =>
      rw [readLoop, readLoop]
      rcases reads p with same | ⟨missed, blank⟩
      · rw [same]
        split
        · rfl
        · exact induction unfinished
        · rfl
        · split
          · rfl
          · next unfinished' => exact induction unfinished'
      · simp only [missed, blank, List.append_nil, if_neg unfinished]
        exact induction unfinished

theorem firstEmpty_congr {table other : Table} (same : other.logicalIndex = table.logicalIndex)
    (remaining l : Nat) : firstEmpty other remaining l = firstEmpty table remaining l := by
  induction remaining generalizing l with
  | zero => rfl
  | succ remaining induction => rw [firstEmpty, firstEmpty, same, induction]

theorem readSegments_congr {table other : Table}
    (same : other.logicalIndex = table.logicalIndex) : readSegments other = readSegments table := by
  rw [readSegments, readSegments, tableGetReadSegments, tableGetReadSegments,
    firstEmpty_congr same, same]

theorem sfsAllActivate_put (appendSegment : Nat) (created : Nat → Bool)
    (entries : List LogicalEntry) (this : Segments) (sfs : Sfs.Segment) :
    sfsAllActivate appendSegment created entries (this.put appendSegment sfs) =
      (sfsAllActivate appendSegment created entries this).map fun result =>
        (result.1, result.2.put appendSegment sfs) := by
  induction entries generalizing this with
  | nil => rfl
  | cons entry rest induction =>
    cases entry with
    | empty => rfl
    | notUse => exact induction this
    | segment p =>
      rw [sfsAllActivate, sfsAllActivate]
      by_cases own : p = appendSegment
      · rw [if_pos own, if_pos own, induction]
      · rw [if_neg own, if_neg own, this.sfsActivate_put own]
        cases this.sfsActivate p .file false 0 (created p) with
        | none => rfl
        | some result =>
          obtain ⟨_ | _, next⟩ := result
          · exact induction next
          · rfl

theorem sfsAllActivate_appendSegment {appendSegment : Nat} {created : Nat → Bool}
    {entries : List LogicalEntry} {this next : Segments} {ret : Ret}
    (run : sfsAllActivate appendSegment created entries this = some (ret, next)) :
    next.sfs appendSegment = this.sfs appendSegment := by
  have moved := sfsAllActivate_put appendSegment created entries this (this.sfs appendSegment)
  rw [this.put_eq_self, run] at moved
  have same : next = next.put appendSegment (this.sfs appendSegment) := by
    simpa using moved
  rw [same, Segments.put_self]

/-- The stores differ in the append segment, which has the same files or an empty one more, and in
what no reader looks at. -/
structure Alike (this next : Store) : Prop where
  logicalIndex : next.table.logicalIndex = this.table.logicalIndex
  appendSegment : next.appendSegment = this.appendSegment
  segments : ∃ sfs, next.segments = this.segments.put this.appendSegment sfs ∧
    sfs.type = (this.segments.sfs this.appendSegment).type ∧
    ∀ fileId < 2 ^ 31, SameFile (this.segments.sfs this.appendSegment) sfs fileId

namespace Alike

variable {this next : Store} {fileId : Nat}

theorem refl (this : Store) : Alike this this where
  logicalIndex := rfl
  appendSegment := rfl
  segments := ⟨_, (this.segments.put_eq_self _).symm, rfl, fun _ _ => .same rfl fun _ _ => rfl⟩

theorem congr {other : Store} (alike : Alike this next)
    (logicalIndex : other.table.logicalIndex = next.table.logicalIndex)
    (appendSegment : other.appendSegment = next.appendSegment)
    (segments : other.segments = next.segments) : Alike this other where
  logicalIndex := logicalIndex.trans alike.logicalIndex
  appendSegment := appendSegment.trans alike.appendSegment
  segments := by
    rw [segments]
    exact alike.segments

theorem fileSize (alike : Alike this next) (small : fileId < 2 ^ 31) (lockTaken : Bool) (p : Nat) :
    next.fileSize lockTaken fileId p = this.fileSize lockTaken fileId p ∨
      this.fileSize lockTaken fileId p = some (.error .fileNotExists) ∧
        next.fileSize lockTaken fileId p = some (.ok 0) := by
  obtain ⟨sfs, segments, type, files⟩ := alike.segments
  rw [Store.fileSize, Store.fileSize, alike.appendSegment, segments]
  by_cases own : p = this.appendSegment
  · subst own
    rw [Segments.put_self, type]
    split_ifs
    · exact .inl rfl
    · exact .inl rfl
    · cases files fileId small with
      | same size _ => exact .inl size
      | added missing blank _ _ => exact .inr ⟨missing, blank⟩
  · rw [Segments.put_of_ne _ own]
    exact .inl rfl

theorem readSegment (alike : Alike this next) (small : fileId < 2 ^ 31) (lockTaken : Bool)
    (p : Nat) :
    (∀ offset size, next.readSegment lockTaken fileId p offset size =
        this.readSegment lockTaken fileId p offset size) ∨
      (∀ offset size, this.readSegment lockTaken fileId p offset size =
          some (.error .fileNotExists)) ∧
        ∀ size, next.readSegment lockTaken fileId p 0 size = some (.ok []) := by
  obtain ⟨sfs, segments, type, files⟩ := alike.segments
  simp only [Store.readSegment, alike.appendSegment, segments]
  by_cases own : p = this.appendSegment
  · subst own
    rw [Segments.put_self, type]
    split_ifs
    · exact .inl fun _ _ => rfl
    · exact .inl fun _ _ => rfl
    · cases files fileId small with
      | same _ read => exact .inl read
      | added _ _ missed read => exact .inr ⟨missed, read⟩
  · rw [Segments.put_of_ne _ own]
    exact .inl fun _ _ => rfl

end Alike

theorem readSegment_found {this : Store} {fileId p size : Nat} {lockTaken : Bool}
    (found : this.fileSize lockTaken fileId p = some (.ok size)) (lockTakenAgain : Bool)
    (offset count : Nat) :
    this.readSegment lockTakenAgain fileId p offset count ≠ some (.error .fileNotExists) := by
  have exists_ : ∃ entry, Sfs.sfsExistFile (this.segments.sfs p) fileId = some (.ok entry) := by
    rw [fileSize] at found
    split at found
    · cases found
    · split at found
      · cases found
      · rw [sizeOfFile] at found
        split at found
        · cases found
        · next nonzero =>
          rw [Sfs.sfsGetInfo, if_neg nonzero] at found
          rcases entry : Sfs.sfsExistFile (this.segments.sfs p) fileId with _ | _ | entry
          · simp [entry] at found
          · simp [entry] at found
          · exact ⟨_, rfl⟩
  obtain ⟨entry, exists_⟩ := exists_
  rw [readSegment]
  split_ifs
  · simp
  · simp
  · exact Sfs.sfsRead_found exists_

namespace Alike

variable {this next : Store} {fileId : Nat}

theorem readFile (alike : Alike this next) (small : fileId < 2 ^ 31) (reader : Reader)
    (offset size : Nat) :
    next.readFile reader fileId offset size = this.readFile reader fileId offset size := by
  have entries := readSegments_congr alike.logicalIndex
  have start := getStartSegment_congr (alike.fileSize small reader.searchLocked) offset
    (readSegments this.table) 0 offset
  rw [Store.readFile, Store.readFile, entries, start]
  split
  · rfl
  · rfl
  · next found startOffset search =>
    obtain ⟨p, rest, size_, rfl, isSize, _⟩ := getStartSegment_found search
    have notMissing := readSegment_found isSize reader.loopLocked startOffset size
    rw [readLoop, readLoop, List.length_nil, Nat.sub_zero]
    rcases alike.readSegment small reader.loopLocked p with same | ⟨missed, _⟩
    · rw [same]
      split
      · rfl
      · next missing => exact absurd missing notMissing
      · rfl
      · split
        · rfl
        · next unfinished =>
          exact readLoop_congr (alike.readSegment small reader.loopLocked) rest unfinished
    · exact absurd (missed startOffset size) notMissing

theorem ifsRead (alike : Alike this next) (small : fileId < 2 ^ 31) (reader : Reader)
    (offset size : Nat) :
    (next.ifsRead reader fileId offset size).map Prod.fst =
      (this.ifsRead reader fileId offset size).map Prod.fst := by
  obtain ⟨sfs, segments, type, files⟩ := alike.segments
  rw [Store.ifsRead, Store.ifsRead, readSegments_congr alike.logicalIndex, alike.appendSegment,
    segments, sfsAllActivate_put]
  split
  · rfl
  · cases activated : sfsAllActivate this.appendSegment reader.created (readSegments this.table)
      this.segments with
    | none => rfl
    | some result =>
      obtain ⟨_ | _, opened⟩ := result
      · have own := sfsAllActivate_appendSegment activated
        have openedAlike : Alike { this with segments := opened }
            { next with segments := opened.put this.appendSegment sfs
                        appendSegment := this.appendSegment } :=
          ⟨alike.logicalIndex, rfl, sfs, rfl, by rw [own]; exact type,
            by rw [own]; exact files⟩
        have answers := openedAlike.readFile small reader offset size
        simp only [Option.map_some, answers]
        cases { this with segments := opened }.readFile reader fileId offset size with
        | none => rfl
        | some _ => rfl
      · rfl

end Alike

end Store

end Wisebot.Ifs
