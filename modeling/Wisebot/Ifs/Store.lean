import Wisebot.Ifs.Rollover

namespace Wisebot.Ifs

open Wisebot.Sfs (Failure oFat oHashRootDir)

/-! `ifs_append`, `ifs_read` and `ifs_getsize` of `modules/mod_ifs/mod_ifs.c`. -/

/-- The shared part and the handles of a process, and whether the process holds the lock. -/
structure Store where
  table : Table
  segments : Segments
  appendSegment : Nat
  locked : Bool

namespace Store

/-- Whether `acquire_lock` succeeds is up to the system. -/
def acquireLock (this : Store) (taken : Bool) : Store :=
  if taken then { this with locked := true } else this

def releaseLock (this : Store) : Store := { this with locked := false }

@[simp] theorem releaseLock_table (this : Store) : this.releaseLock.table = this.table := rfl

@[simp] theorem releaseLock_segments (this : Store) :
    this.releaseLock.segments = this.segments := rfl

@[simp] theorem releaseLock_appendSegment (this : Store) :
    this.releaseLock.appendSegment = this.appendSegment := rfl

@[simp] theorem acquireLock_table (this : Store) (taken : Bool) :
    (this.acquireLock taken).table = this.table := by
  rw [acquireLock]
  split <;> rfl

@[simp] theorem acquireLock_segments (this : Store) (taken : Bool) :
    (this.acquireLock taken).segments = this.segments := by
  rw [acquireLock]
  split <;> rfl

@[simp] theorem acquireLock_appendSegment (this : Store) (taken : Bool) :
    (this.acquireLock taken).appendSegment = this.appendSegment := by
  rw [acquireLock]
  split <;> rfl

/-- What the calls for a new segment meet: the segments that have been `TEMP` for long enough,
the outcome of `__file_open` and `sfs_create`, whether the lock is taken again, and whether
`__sfs_activate` gets the memory to format the append segment. -/
structure Surroundings where
  expired : Nat → Bool
  created : Bool
  locked : Bool
  formatted : Bool

/-- A call of `ifs_append`, with what it meets: whether it gets the lock, and the surroundings of
each new segment. -/
structure Call where
  fileId : Nat
  buf : List UInt8
  locked : Bool
  around : Nat → Surroundings

def formatAppendSegment (this : Store) (around : Surroundings) : Option (Ret × Store) :=
  if around.formatted = false then some (.fail, this)
  else
    match this.segments.sfsActivate this.appendSegment .mmap true (oFat ||| oHashRootDir)
      around.created with
    | none => none
    | some (ret, segments) => some (ret, { this with segments := segments })

/-- How a part of `ifs_append` ends: the function goes on, or it returns `FAIL`. -/
inductive Progress where
  | goOn (next : Store)
  | fail (next : Store)

/-- The part of the rollover in which the lock is taken again: the new segment is listed instead of
the append segment, which becomes the last one again when it is without files. -/
def listSegments (this : Store) (freeSegment : Nat) (around : Surroundings) : Option Progress :=
  match tableUpdateLastLogicalSegment this.table freeSegment with
  | none => none
  | some table =>
    match { this with table := table }.formatAppendSegment around with
    | none => none
    | some (.fail, this) => some (.fail this)
    | some (.success, this) =>
      match tableAppendLogicalSegment this.table this.appendSegment with
      | (.fail, table) => some (.fail { this with table := table }.releaseLock)
      | (.success, table) => some (.goOn { this with table := table })

/-- What is done when the append segment is full: its files move to a free segment. -/
def rollOver (this : Store) (fuel : Nat) (around : Surroundings) : Option Progress :=
  match tableAllocate this.table .index around.expired with
  | none => none
  | some (none, table) => some (.fail { this with table := table }.releaseLock)
  | some (some freeSegment, table) =>
    let this := { this with table := table }.releaseLock
    match moveFileSegment fuel this.segments this.appendSegment freeSegment around.created with
    | none => none
    | some (.fail, segments, _) => some (.fail { this with segments := segments })
    | some (.success, segments, _) =>
      ({ this with segments := segments }.acquireLock around.locked).listSegments freeSegment
        around

def sfsAppend (this : Store) (fileId : Nat) (buf : List UInt8) :
    Option (Except Failure Nat × Store) :=
  let p := this.appendSegment
  if (this.segments.sfs p).type = .unload then none
  else
    match Sfs.sfsAppend (this.segments.sfs p) fileId buf with
    | none => none
    | some (written, sfs) => some (written, { this with segments := this.segments.put p sfs })

/-- The `while` of `ifs_append` for the bytes that are left. -/
def appendRounds (call : Call) (fuel : Nat) : (rounds : Nat) → (round : Nat) → Store →
    (totalByte : Nat) → List UInt8 → Option (Except Failure Nat × Store)
  | 0, _, _, _, _ => none
  | rounds + 1, round, this, totalByte, buf =>
    match this.sfsAppend call.fileId buf with
    | none => none
    | some (.error _, this) => some (.error .fail, this.releaseLock)
    | some (.ok appendByte, this) =>
      if buf.length > appendByte then
        match this.rollOver fuel (call.around round) with
        | none => none
        | some (.fail this) => some (.error .fail, this)
        | some (.goOn this) =>
          appendRounds call fuel rounds (round + 1) this (totalByte + appendByte)
            (buf.drop appendByte)
      else some (.ok (totalByte + appendByte), this.releaseLock)

def ifsAppend (fuel rounds : Nat) (this : Store) (call : Call) :
    Option (Except Failure Nat × Store) :=
  if call.locked = false then some (.error .fail, this)
  else appendRounds call fuel rounds 0 (this.acquireLock true) 0 call.buf

/-- What a reading call meets: whether it gets the lock for the table, for the append segment in
the search and for it in the loop, and the outcome of `__file_open` and `sfs_create`. -/
structure Reader where
  locked : Bool
  searchLocked : Bool
  loopLocked : Bool
  created : Nat → Bool

def readSegments (table : Table) : List LogicalEntry :=
  (List.range (tableGetReadSegments table)).map table.logicalIndex

/-- `__sfs_all_activate`. -/
def sfsAllActivate (appendSegment : Nat) (created : Nat → Bool) :
    List LogicalEntry → Segments → Option (Ret × Segments)
  | [], this => some (.success, this)
  | .segment p :: rest, this =>
    if p = appendSegment then sfsAllActivate appendSegment created rest this
    else
      match this.sfsActivate p .file false 0 (created p) with
      | none => none
      | some (.fail, this) => some (.fail, this)
      | some (.success, this) => sfsAllActivate appendSegment created rest this
  | .notUse :: rest, this => sfsAllActivate appendSegment created rest this
  | .empty :: _, this => some (.fail, this)

/-- The size of a file in a segment; for the id 0 it is not set. -/
def sizeOfFile (sfs : Sfs.Segment) (fileId : Nat) : Option (Except Failure Nat) :=
  if fileId = 0 then none
  else
    match Sfs.sfsGetInfo sfs fileId with
    | none => none
    | some (.error failure) => some (.error failure)
    | some (.ok info) => some (.ok info.fileSize)

/-- The size as `__get_start_segment` and `__get_file_size` get it. -/
def fileSize (this : Store) (lockTaken : Bool) (fileId p : Nat) : Option (Except Failure Nat) :=
  if p = this.appendSegment ∧ lockTaken = false then some (.error .fail)
  else if (this.segments.sfs p).type = .unload then none
  else sizeOfFile (this.segments.sfs p) fileId

/-- `__get_start_segment`: the segments from the first one with a byte behind the offset on, and
the offset in it. The sum is an `int`. -/
def getStartSegment (sizeOf : Nat → Option (Except Failure Nat)) (offset : Nat) :
    List LogicalEntry → (totalSize startOffset : Nat) → Option (Option (List LogicalEntry × Nat))
  | [], _, _ => some none
  | .segment p :: rest, totalSize, startOffset =>
    match sizeOf p with
    | none => none
    | some (.error .fileNotExists) => getStartSegment sizeOf offset rest totalSize startOffset
    | some (.error .fail) => some none
    | some (.ok size) =>
      if size = 0 then getStartSegment sizeOf offset rest totalSize startOffset
      else if 2 ^ 31 ≤ totalSize + size then none
      else if totalSize + size > offset then some (some (.segment p :: rest, startOffset))
      else getStartSegment sizeOf offset rest (totalSize + size) (startOffset - size)
  | .notUse :: rest, totalSize, startOffset =>
    getStartSegment sizeOf offset rest totalSize startOffset
  | .empty :: _, _, _ => none

def readSegment (this : Store) (lockTaken : Bool) (fileId p offset size : Nat) :
    Option (Except Failure (List UInt8)) :=
  if p = this.appendSegment ∧ lockTaken = false then some (.error .fail)
  else if (this.segments.sfs p).type = .unload then none
  else Sfs.sfsRead (this.segments.sfs p) fileId offset size

/-- The loop of `ifs_read` over the segments, with what it has read. -/
def readLoop (read : (p offset size : Nat) → Option (Except Failure (List UInt8))) (size : Nat) :
    List LogicalEntry → (startOffset : Nat) → (fileExists : Bool) → List UInt8 →
      Option (Except Failure (List UInt8))
  | [], _, fileExists, bytes => some (if fileExists then .ok bytes else .error .fileNotExists)
  | .segment p :: rest, startOffset, fileExists, bytes =>
    match read p startOffset (size - bytes.length) with
    | none => none
    | some (.error .fileNotExists) => readLoop read size rest startOffset fileExists bytes
    | some (.error .fail) => some (.error .fail)
    | some (.ok more) =>
      if (bytes ++ more).length = size then some (.ok (bytes ++ more))
      else readLoop read size rest 0 true (bytes ++ more)
  | .notUse :: rest, startOffset, fileExists, bytes =>
    readLoop read size rest startOffset fileExists bytes
  | .empty :: _, _, _, _ => none

/-- The part of `ifs_read` behind the activation of the segments. -/
def readFile (this : Store) (reader : Reader) (fileId offset size : Nat) :
    Option (Except Failure (List UInt8)) :=
  match getStartSegment (this.fileSize reader.searchLocked fileId) offset (readSegments this.table)
    0 offset with
  | none => none
  | some none => some (.error .fileNotExists)
  | some (some (segments, startOffset)) =>
    readLoop (this.readSegment reader.loopLocked fileId) size segments startOffset false []

/-- Without another process the version of the table stays, so that nothing is read again. -/
def ifsRead (this : Store) (reader : Reader) (fileId offset size : Nat) :
    Option (Except Failure (List UInt8) × Store) :=
  if reader.locked = false then some (.error .fail, this)
  else
    match sfsAllActivate this.appendSegment reader.created (readSegments this.table)
      this.segments with
    | none => none
    | some (.fail, segments) => some (.error .fail, { this with segments := segments })
    | some (.success, segments) =>
      let this := { this with segments := segments }
      match this.readFile reader fileId offset size with
      | none => none
      | some result => some (result, this)

/-- `__get_file_size`. -/
def getFileSize (sizeOf : Nat → Option (Except Failure Nat)) :
    List LogicalEntry → (fileExists : Bool) → (totalSize : Nat) → Option (Except Failure Nat)
  | [], fileExists, totalSize => some (if fileExists then .ok totalSize else .error .fileNotExists)
  | .segment p :: rest, fileExists, totalSize =>
    match sizeOf p with
    | none => none
    | some (.error .fileNotExists) => getFileSize sizeOf rest fileExists totalSize
    | some (.error .fail) => some (.error .fail)
    | some (.ok size) =>
      if 2 ^ 31 ≤ totalSize + size then none
      else getFileSize sizeOf rest true (totalSize + size)
  | .notUse :: rest, fileExists, totalSize => getFileSize sizeOf rest fileExists totalSize
  | .empty :: _, _, _ => none

def ifsGetsize (this : Store) (reader : Reader) (fileId : Nat) :
    Option (Except Failure Nat × Store) :=
  if reader.locked = false then some (.error .fail, this)
  else
    match sfsAllActivate this.appendSegment reader.created (readSegments this.table)
      this.segments with
    | none => none
    | some (.fail, segments) => some (.error .fail, { this with segments := segments })
    | some (.success, segments) =>
      let this := { this with segments := segments }
      match getFileSize (this.fileSize reader.searchLocked fileId) (readSegments this.table) false
        0 with
      | none => none
      | some result => some (result, this)

/-- `_ifs_open` where there is no index file system yet; the sizes fit together and the lock is
released on every path. `segments` are the files with no handle to them. -/
def create (segments : Segments) (count : Nat) (expired : Nat → Bool) (created : Bool) :
    Option (Ret × Store) :=
  match tableAllocate (tableInit count) .index expired with
  | none => none
  | some (none, table) => some (.fail, ⟨table, segments, 0, false⟩)
  | some (some appendSegment, table) =>
    match tableUpdateLogicalSegment table 0 (.segment appendSegment) with
    | none => none
    | some (.fail, table) => some (.fail, ⟨table, segments, 0, false⟩)
    | some (.success, table) =>
      match segments.sfsActivate appendSegment .mmap true (oFat ||| oHashRootDir) created with
      | none => none
      | some (.fail, segments) => some (.fail, ⟨table, segments, 0, false⟩)
      | some (.success, segments) => some (.success, ⟨table, segments, appendSegment, false⟩)

end Store

end Wisebot.Ifs
