import Wisebot.Ifs.Reading
import Wisebot.Ifs.UnusedEntries

namespace Wisebot.Ifs

open Wisebot.Sfs hiding Ret

/-! What `ifs_append` leaves behind, on each of its exits. -/

section

variable {table next : Table} {entries front : List LogicalEntry} {last : LogicalEntry} {p : Nat}

theorem Table.Holds.congr (holds : table.Holds entries)
    (same : next.logicalIndex = table.logicalIndex) : next.Holds entries :=
  { holds with entry := by rw [same]; exact holds.entry }

theorem Table.Holds.readSegments_eq (holds : table.Holds entries) :
    tableGetReadSegments table = entries.length := by
  have found := holds.firstEmpty_eq 0
  rwa [Nat.sub_zero, Nat.max_zero] at found

theorem Table.Holds.setLogical (holds : table.Holds entries) {l : Nat}
    (isPlace : l = entries.length ∨ l + 1 = entries.length) (room : l < maxLogicalCount) :
    (table.setLogical l (.segment p)).Holds (entries.take l ++ [.segment p]) := by
  have fits := holds.fits
  have length : (entries.take l).length = l := List.length_take_of_le (by omega)
  refine ⟨?_, ?_, ?_⟩
  · intro member
    rcases List.mem_append.mp member with inFront | isLast
    · exact holds.noEmpty (List.mem_of_mem_take inFront)
    · cases List.mem_singleton.mp isLast
  · rw [List.length_append, length, List.length_singleton]
    omega
  · intro k inside
    show Function.update table.logicalIndex l (.segment p) k = _
    rcases Nat.lt_trichotomy k l with before | same | behind
    · rw [Function.update_of_ne before.ne, holds.entry k inside,
        List.getElem?_append_left (by omega), List.getElem?_take_of_lt before]
    · subst same
      rw [Function.update_self, List.getElem?_append_right (by omega), length, Nat.sub_self]
      rfl
    · rw [Function.update_of_ne behind.ne', holds.entry k inside,
        List.getElem?_eq_none (by omega), List.getElem?_eq_none (by simp; omega)]

structure Enters (table : Table) (p : Nat) (entries : List LogicalEntry) (next : Table) :
    Prop where
  holds : next.Holds entries
  segmentCountInSector : next.segmentCountInSector = table.segmentCountInSector
  states : ∀ q < maxSectorCount * table.segmentCountInSector,
    next.stateOf q = if q = p then .allocated else table.stateOf q

variable (sized : Sized table.segmentCountInSector)
  (small : p < maxSectorCount * table.segmentCountInSector)

include sized small

theorem enters_setLogical (holds : table.Holds entries) {l : Nat}
    (isPlace : l = entries.length ∨ l + 1 = entries.length) (room : l < maxLogicalCount) :
    Enters table p (entries.take l ++ [.segment p])
      (tableUpdatePhysicalSegment (table.setLogical l (.segment p)) p .allocated).2 where
  holds := (holds.setLogical isPlace room).congr
    (tableUpdatePhysicalSegment_keeps _ _ _).logicalIndex
  segmentCountInSector := (tableUpdatePhysicalSegment_keeps _ _ _).segmentCountInSector
  states := fun _ alsoSmall => tableUpdatePhysicalSegment_stateOf sized small alsoSmall

theorem tableUpdateLastLogicalSegment_enters (holds : table.Holds (front ++ [last]))
    (run : tableUpdateLastLogicalSegment table p = some next) :
    Enters table p (front ++ [.segment p]) next ∧ front.length + 1 < maxLogicalCount := by
  have count := holds.readSegments_eq
  have fits := holds.fits
  rw [List.length_append, List.length_singleton] at count fits
  simp only [tableUpdateLastLogicalSegment, count] at run
  split at run
  · cases run
  · next some_ =>
    cases run
    have entered := enters_setLogical sized small holds (l := front.length) (.inr (by simp))
      (by omega)
    rw [List.take_left] at entered
    exact ⟨⟨entered.holds.congr rfl, entered.segmentCountInSector, entered.states⟩, by omega⟩

theorem tableAppendLogicalSegment_enters (holds : table.Holds entries)
    (room : entries.length < maxLogicalCount) :
    ∃ next, tableAppendLogicalSegment table p = (.success, next) ∧
      Enters table p (entries ++ [.segment p]) next := by
  have entered := enters_setLogical sized small holds (.inl rfl) room
  rw [List.take_length] at entered
  refine ⟨_, ?_, entered⟩
  simp only [tableAppendLogicalSegment, holds.readSegments_eq, if_pos room]

end

theorem moveFileSegment_put {fuel : Nat} {this next : Segments} {fromSeg toSeg : Nat}
    {created : Bool} {chunks : List Chunk}
    (run : moveFileSegment fuel this fromSeg toSeg created = some (.success, next, chunks)) :
    ∃ sfs, next = this.put toSeg sfs := by
  simp only [moveFileSegment] at run
  split at run
  · cases run
  · split at run
    · cases run
    · cases run
    · split at run
      · cases run
      · cases run
      · split at run
        · cases run
        · cases run
        · next activated =>
          obtain ⟨_, isPut⟩ := Segments.sfsActivate_eq_put activated
          split at run
          · cases run
          · cases run
            rw [isPut, Segments.put_put, Segments.sfsDeactivate, Segments.put_put]
            exact ⟨_, rfl⟩

/-- The append segment can be formatted, and no probe leaves the directory that it has then. -/
structure Segments.Formattable (this : Segments) : Prop where
  fits : this.segmentSize < 2 ^ 31
  accepted : ∃ other formatted,
    sfsFormat other (oFat ||| oHashRootDir) this.segmentSize this.blockSize =
      some (.success, formatted)
  probes : ProbesInDirectory
    (formattedSuperBlock (oFat ||| oHashRootDir) this.segmentSize this.blockSize)

theorem Segments.Formattable.put {this : Segments} (formattable : this.Formattable) (p : Nat)
    (sfs : Sfs.Segment) : (this.put p sfs).Formattable :=
  ⟨formattable.fits, formattable.accepted, formattable.probes⟩

namespace Store

/-- The append segment is the last one of the table. It is mapped into memory, where the transfers
do not fail, and holds files. -/
structure Sound (this : Store) : Prop where
  sized : Sized this.table.segmentCountInSector
  listed : ∃ front, this.table.Holds (front ++ [.segment this.appendSegment])
  small : this.appendSegment < maxSectorCount * this.table.segmentCountInSector
  allocated : this.table.stateOf this.appendSegment = .allocated
  noIndex : ∀ p < maxSectorCount * this.table.segmentCountInSector,
    this.table.stateOf p ≠ .index
  formattable : this.segments.Formattable
  mapped : (this.segments.sfs this.appendSegment).type = .mmap
  holdsFiles : ∃ geo files free chain,
    LaidOut (oFat ||| oHashRootDir) this.segments.segmentSize this.segments.blockSize geo ∧
      Represents (this.segments.sfs this.appendSegment) geo files free chain

theorem formatAppendSegment_blank (this : Store) (formattable : this.segments.Formattable)
    {around : Surroundings} (formatted : around.formatted = true)
    (isOpen : (this.segments.sfs this.appendSegment).type = .mmap)
    (reliable : (this.segments.sfs this.appendSegment).io.Reliable) :
    ∃ geo sfs, this.formatAppendSegment around =
        some (.success, { this with segments := this.segments.put this.appendSegment sfs }) ∧
      sfs.type = .mmap ∧
      LaidOut (oFat ||| oHashRootDir) this.segments.segmentSize this.segments.blockSize geo ∧
      Represents sfs geo (fun _ => none) geo.fileStart fun _ => [] := by
  obtain ⟨other, formattedOther, accepted⟩ := formattable.accepted
  obtain ⟨sfs, run, activated⟩ :=
    this.segments.sfsActivate_again isOpen (by decide) reliable accepted around.created
  obtain ⟨geo, laidOut, _, blank, _⟩ :=
    sfsFormat_probes reliable formattable.fits run formattable.probes
  refine ⟨geo, { sfs with type := .mmap }, ?_, rfl, laidOut, blank.reopen .mmap⟩
  rw [formatAppendSegment, if_neg (by rw [formatted]; decide), activated]

/-- When the files of the append segment are in the segment `p`, that one is listed in front of the
append segment. -/
theorem listSegments_goOn (this : Store) (sized : Sized this.table.segmentCountInSector)
    (listed : ∃ front last, this.table.Holds (front ++ [last]))
    (small : this.appendSegment < maxSectorCount * this.table.segmentCountInSector) {p : Nat}
    (pSmall : p < maxSectorCount * this.table.segmentCountInSector)
    (noIndex : ∀ q < maxSectorCount * this.table.segmentCountInSector, q ≠ p →
      this.table.stateOf q ≠ .index)
    (formattable : this.segments.Formattable) {around : Surroundings}
    (formatted : around.formatted = true)
    (isOpen : (this.segments.sfs this.appendSegment).type = .mmap)
    (reliable : (this.segments.sfs this.appendSegment).io.Reliable) {progress : Progress}
    (run : this.listSegments p around = some progress) :
    ∃ next, progress = .goOn next ∧ next.Sound := by
  obtain ⟨front, last, listed⟩ := listed
  rw [listSegments] at run
  split at run
  · cases run
  · next table updated =>
    obtain ⟨entered, room⟩ := tableUpdateLastLogicalSegment_enters sized pSmall listed updated
    obtain ⟨geo, sfs, ran, type, laidOut, blank⟩ := formatAppendSegment_blank
      { this with table := table } formattable formatted isOpen reliable
    have count := entered.segmentCountInSector
    obtain ⟨last', appended, again⟩ := tableAppendLogicalSegment_enters (p := this.appendSegment)
      (count.symm ▸ sized) (count.symm ▸ small) entered.holds (by simpa using room)
    have count' := again.segmentCountInSector.trans count
    simp only [ran, appended] at run
    cases run
    have states : ∀ q < maxSectorCount * this.table.segmentCountInSector, last'.stateOf q =
        if q = this.appendSegment then .allocated
        else if q = p then .allocated else this.table.stateOf q := by
      intro q qSmall
      rw [again.states q (count.symm ▸ qSmall), entered.states q qSmall]
    refine ⟨_, rfl, ?_⟩
    exact
      { sized := count'.symm ▸ sized
        listed := ⟨_, again.holds⟩
        small := count'.symm ▸ small
        allocated := (states _ small).trans (if_pos rfl)
        noIndex := by
          intro q qSmall
          have inside : q < maxSectorCount * this.table.segmentCountInSector := count' ▸ qSmall
          rw [states q inside]
          split_ifs with own new
          · decide
          · decide
          · exact noIndex q inside new
        formattable := formattable.put _ _
        mapped := by rwa [Segments.put_self]
        holdsFiles := ⟨geo, _, _, _, laidOut, by rwa [Segments.put_self]⟩ }

namespace Sound

variable {this next : Store} {fileId : Nat}

theorem releaseLock (sound : this.Sound) : this.releaseLock.Sound := { sound with }

theorem acquireLock (sound : this.Sound) (taken : Bool) : (this.acquireLock taken).Sound := by
  rw [Store.acquireLock]
  split
  · exact { sound with }
  · exact sound

theorem sfsAppend_zero (sound : this.Sound) (buf : List UInt8) :
    this.sfsAppend 0 buf = some (.error .fail, this) := by
  have loaded : (this.segments.sfs this.appendSegment).type ≠ .unload := by
    rw [sound.mapped]
    decide
  have failed : Sfs.sfsAppend (this.segments.sfs this.appendSegment) 0 buf =
      some (.error .fail, this.segments.sfs this.appendSegment) := rfl
  simp only [Store.sfsAppend, if_neg loaded, failed, Segments.put_eq_self]

/-- An append writes to the append segment; one that writes nothing leaves at most an empty
file. -/
theorem sfsAppend (sound : this.Sound) (positive : 1 ≤ fileId) (small : fileId < 2 ^ 31)
    (buf : List UInt8) :
    ∃ written sfs, this.sfsAppend fileId buf =
        some (.ok written, { this with segments := this.segments.put this.appendSegment sfs }) ∧
      Sound { this with segments := this.segments.put this.appendSegment sfs } ∧
      (written = 0 →
        this.Alike { this with segments := this.segments.put this.appendSegment sfs }) := by
  obtain ⟨geo, files, free, chain, laidOut, represents⟩ := sound.holdsFiles
  have inside : geo.ProbesInside := sound.formattable.probes.inside laidOut.shaped
  have fat : geo.fat = true := laidOut.fat_eq
  have loaded : (this.segments.sfs this.appendSegment).type ≠ .unload := by
    rw [sound.mapped]
    decide
  obtain ⟨written, sfs, files', free', chain', run, represents', _, type, grown⟩ :=
    represents.sfsAppend_files fat inside positive small buf
  refine ⟨written, sfs, ?_, ?_, ?_⟩
  · simp only [Store.sfsAppend, if_neg loaded, run]
  · refine
      { sound with
        formattable := sound.formattable.put _ _
        mapped := ?_
        holdsFiles := ⟨geo, files', free', chain', laidOut, ?_⟩ }
    · rw [Segments.put_self, type]
      exact sound.mapped
    · rwa [Segments.put_self]
  · intro nothing
    refine ⟨rfl, rfl, sfs, rfl, type, ?_⟩
    intro id idFits
    rcases Nat.eq_zero_or_pos id with zero | positive'
    · subst zero
      exact .same rfl fun _ _ => rfl
    have size := sizeOfFile_eq represents inside positive' idFits
    have size' := sizeOfFile_eq represents' inside positive' idFits
    have read := sfsRead_eq represents inside positive' idFits
    have read' := sfsRead_eq represents' inside positive' idFits
    have same : files' id = files id → SameFile (this.segments.sfs this.appendSegment) sfs id := by
      intro same
      rw [same] at size' read'
      exact .same (size'.trans size.symm) fun offset count =>
        (read' offset count).trans (read offset count).symm
    rcases grown with ⟨_, unchanged⟩ | grown
    · exact same (congrFun unchanged id)
    · rw [nothing, List.take_zero, List.append_nil] at grown
      by_cases own : id = fileId
      · subst own
        have content : files' id = some (Represents.bytesOf files id) := by
          rw [grown, Function.update_self]
        cases stored : files id with
        | some bytes =>
          refine same (content.trans ?_)
          rw [Represents.bytesOf, stored, Option.getD_some]
        | none =>
          rw [Represents.bytesOf, stored, Option.getD_none] at content
          rw [stored] at size read
          rw [content] at size' read'
          refine .added size size' read ?_
          intro count
          rw [read', Part.read, if_pos (Nat.zero_le _), List.drop_zero, List.take_nil]
      · exact same (by rw [grown, Function.update_of_ne own])

theorem allocated_ne (sound : this.Sound) {expired : Nat → Bool} {p : Nat} {table : Table}
    (allocates : Allocates this.table .index expired p table) : this.appendSegment ≠ p := by
  rintro rfl
  have wasFree := allocates.wasFree
  rw [stateCleared, sound.allocated] at wasFree
  cases wasFree

theorem stateCleared_ne (sound : this.Sound) {p : Nat}
    (small : p < maxSectorCount * this.table.segmentCountInSector) (expired : Nat → Bool) :
    stateCleared this.table expired p ≠ .index := by
  rw [stateCleared]
  split
  · decide
  · exact sound.noIndex p small

theorem rollOver_goOn (sound : this.Sound) {fuel : Nat} {around : Surroundings} {p : Nat}
    {table : Table} (found : tableAllocate this.table .index around.expired = some (some p, table))
    (moves : ∀ ret segments chunks,
      moveFileSegment fuel this.segments this.appendSegment p around.created =
        some (ret, segments, chunks) → ret = .success)
    (formatted : around.formatted = true) {progress : Progress}
    (run : this.rollOver fuel around = some progress) :
    ∃ next, progress = .goOn next ∧ next.Sound := by
  have allocates : Allocates this.table .index around.expired p table := by
    rcases tableAllocate_cases sound.sized with ⟨q, other, found', allocates⟩ | ⟨_, failed, _⟩
    · rw [found] at found'
      cases found'
      exact allocates
    · rw [found] at failed
      cases failed
  have apart := sound.allocated_ne allocates
  obtain ⟨front, listed⟩ := sound.listed
  obtain ⟨_, _, _, _, _, represents⟩ := sound.holdsFiles
  have count := allocates.keeps.segmentCountInSector
  simp only [rollOver, found, releaseLock_segments, releaseLock_appendSegment] at run
  split at run
  · cases run
  · next moved => cases moves _ _ _ moved
  · next segments chunks moved =>
    obtain ⟨sfs, rfl⟩ := moveFileSegment_put moved
    have stays := this.segments.put_of_ne apart sfs
    refine listSegments_goOn _ ?sized ?listed ?small ?pSmall ?noIndex ?formattable formatted
      ?isOpen ?reliable run
    all_goals
      simp only [acquireLock_table, releaseLock_table, acquireLock_segments,
        acquireLock_appendSegment, count, stays]
    case sized => exact sound.sized
    case listed => exact ⟨front, _, listed.congr allocates.keeps.logicalIndex⟩
    case small => exact sound.small
    case pSmall => exact allocates.small
    case noIndex =>
      intro q small different
      rw [allocates.others q small different]
      exact sound.stateCleared_ne small _
    case formattable => exact sound.formattable.put _ _
    case isOpen => exact sound.mapped
    case reliable => exact represents.mounted.reliable

theorem rollOver_exhausted (sound : this.Sound) {fuel : Nat} {around : Surroundings}
    {table : Table} (full : tableAllocate this.table .index around.expired = some (none, table))
    {progress : Progress} (run : this.rollOver fuel around = some progress) :
    ∃ next, progress = .fail next ∧ next.Sound ∧ next.locked = false ∧
      next.segments = this.segments ∧ next.appendSegment = this.appendSegment ∧
      next.table.logicalIndex = this.table.logicalIndex := by
  have exhausted : Exhausted this.table around.expired table := by
    rcases tableAllocate_cases sound.sized with ⟨_, _, found, _⟩ | ⟨other, full', exhausted⟩
    · rw [full] at found
      cases found
    · rw [full] at full'
      cases full'
      exact exhausted
  have count := exhausted.keeps.segmentCountInSector
  obtain ⟨front, listed⟩ := sound.listed
  rw [rollOver, full] at run
  cases run
  refine ⟨_, rfl, ?_, rfl, rfl, rfl, exhausted.keeps.logicalIndex⟩
  refine Sound.releaseLock
    { sound with
      sized := ?_
      listed := ⟨front, listed.congr exhausted.keeps.logicalIndex⟩
      small := ?_
      allocated := ?_
      noIndex := ?_ }
  · exact count.symm ▸ sound.sized
  · exact count.symm ▸ sound.small
  · rw [exhausted.states _ sound.small, stateCleared, sound.allocated]
    rfl
  · intro q small
    rw [exhausted.states q (count ▸ small)]
    exact sound.stateCleared_ne (count ▸ small) _

end Sound

structure Round where
  this : Store
  round : Nat
  buf : List UInt8

def roundsOf (call : Call) (fuel : Nat) : (rounds : Nat) → (round : Nat) → Store →
    List UInt8 → List Round
  | 0, _, _, _ => []
  | rounds + 1, round, this, buf =>
    ⟨this, round, buf⟩ ::
      match this.sfsAppend call.fileId buf with
      | some (.ok appendByte, full) =>
        if buf.length > appendByte then
          match full.rollOver fuel (call.around round) with
          | some (.goOn next) =>
            roundsOf call fuel rounds (round + 1) next (buf.drop appendByte)
          | _ => []
        else []
      | _ => []

/-- The append segment has taken only a part of the bytes. -/
structure Round.Fills (this : Round) (call : Call) (appendByte : Nat) (full : Store) : Prop where
  run : this.this.sfsAppend call.fileId this.buf = some (.ok appendByte, full)
  part : appendByte < this.buf.length

/-- The condition on a round in which the append segment gets full: where no segment is free nothing
has been written, and the files move to a segment that is free, and the append segment is formatted
again. -/
structure Round.Meets (call : Call) (fuel : Nat) (this : Round) : Prop where
  noneFree : ∀ appendByte full table, this.Fills call appendByte full →
    tableAllocate full.table .index (call.around this.round).expired = some (none, table) →
      this.round = 0 ∧ appendByte = 0
  moves : ∀ appendByte full p table ret segments chunks, this.Fills call appendByte full →
    tableAllocate full.table .index (call.around this.round).expired = some (some p, table) →
      moveFileSegment fuel full.segments full.appendSegment p (call.around this.round).created =
        some (ret, segments, chunks) → ret = .success
  formatted : ∀ appendByte full p table, this.Fills call appendByte full →
    tableAllocate full.table .index (call.around this.round).expired = some (some p, table) →
      (call.around this.round).formatted = true

def Call.Meets (call : Call) (fuel rounds : Nat) (this : Store) : Prop :=
  call.locked = true →
    ∀ round ∈ roundsOf call fuel rounds 0 (this.acquireLock true) call.buf, round.Meets call fuel

/-- From the first round on an append keeps the store sound and returns without the lock; it fails
in its first round only. -/
theorem Sound.appendRounds {this next : Store} (sound : this.Sound) {call : Call}
    (small : call.fileId < 2 ^ 31) {fuel rounds round totalByte : Nat} {buf : List UInt8}
    (meets : ∀ other ∈ roundsOf call fuel rounds round this buf, other.Meets call fuel)
    {result : Except Failure Nat}
    (run : Store.appendRounds call fuel rounds round this totalByte buf = some (result, next)) :
    next.Sound ∧ next.locked = false ∧
      ∀ failure, result = .error failure → (round = 0 ∨ call.fileId = 0) ∧ this.Alike next := by
  induction rounds generalizing this round totalByte buf with
  | zero => cases run
  | succ rounds induction =>
    rw [Store.appendRounds] at run
    rcases Nat.eq_zero_or_pos call.fileId with zero | positive
    · rw [zero, sound.sfsAppend_zero] at run
      cases run
      exact ⟨sound.releaseLock, rfl, fun _ _ => ⟨.inr zero, (Alike.refl this).congr rfl rfl rfl⟩⟩
    · obtain ⟨written, sfs, appended, sound₁, alike⟩ := sound.sfsAppend positive small buf
      simp only [appended] at run
      split at run
      · next part =>
        have fills : Round.Fills ⟨this, round, buf⟩ call written _ := ⟨appended, part⟩
        have now : Round.Meets call fuel ⟨this, round, buf⟩ := meets _ List.mem_cons_self
        rcases tableAllocate_cases sound₁.sized with ⟨p, table, found, _⟩ | ⟨table, none_, _⟩
        · split at run
          · cases run
          · next failed rolled =>
            obtain ⟨_, isGoOn, _⟩ := sound₁.rollOver_goOn found
              (fun ret segments chunks => now.moves _ _ p table ret segments chunks fills found)
              (now.formatted _ _ p table fills found) rolled
            cases isGoOn
          · next next₁ rolled =>
            obtain ⟨_, isGoOn, sound₂⟩ := sound₁.rollOver_goOn found
              (fun ret segments chunks => now.moves _ _ p table ret segments chunks fills found)
              (now.formatted _ _ p table fills found) rolled
            cases isGoOn
            have later : roundsOf call fuel (rounds + 1) round this buf = ⟨this, round, buf⟩ ::
                roundsOf call fuel rounds (round + 1) next₁ (buf.drop written) := by
              simp only [roundsOf, appended, if_pos part, rolled]
            rw [later] at meets
            obtain ⟨sound', released, failed⟩ := induction sound₂
              (fun other member => meets other (List.mem_cons_of_mem _ member)) run
            refine ⟨sound', released, ?_⟩
            intro failure isError
            rcases (failed failure isError).1 with first | zero
            · exact absurd first (Nat.succ_ne_zero round)
            · omega
        · obtain ⟨first, nothing⟩ := now.noneFree _ _ table fills none_
          split at run
          · cases run
          · next failed rolled =>
            obtain ⟨_, isFail, sound₂, released, segments, appendSegment, logicalIndex⟩ :=
              sound₁.rollOver_exhausted none_ rolled
            cases isFail
            cases run
            refine ⟨sound₂, released, fun _ _ => ⟨.inl first, ?_⟩⟩
            exact (alike nothing).congr logicalIndex appendSegment segments
          · next rolled =>
            obtain ⟨_, isFail, _⟩ := sound₁.rollOver_exhausted none_ rolled
            cases isFail
      · cases run
        exact ⟨sound₁.releaseLock, rfl, fun _ isError => by cases isError⟩

/-- What a call leaves: the lock is free, no segment is reserved, and where the call has failed
every reader is answered as before. -/
structure Consistent (before : Store) (result : Except Failure Nat) (after : Store) : Prop where
  released : after.locked = false
  noIndex : ∀ p < maxSectorCount * after.table.segmentCountInSector,
    after.table.stateOf p ≠ .index
  unchanged : ∀ failure, result = .error failure → ∀ reader, ∀ fileId < 2 ^ 31, ∀ offset size,
    (after.ifsRead reader fileId offset size).map Prod.fst =
      (before.ifsRead reader fileId offset size).map Prod.fst

/-- What else happens to a store between two appends: segments are opened for reading, and the
entries in front of the append segment are defragmented. -/
structure Maintains (this next : Store) : Prop where
  segmentCountInSector : next.table.segmentCountInSector = this.table.segmentCountInSector
  listed : (∃ front, this.table.Holds (front ++ [.segment this.appendSegment])) →
    ∃ front, next.table.Holds (front ++ [.segment this.appendSegment])
  allocated : next.table.stateOf this.appendSegment = this.table.stateOf this.appendSegment
  noIndex : ∀ p < maxSectorCount * this.table.segmentCountInSector,
    next.table.stateOf p = .index → this.table.stateOf p = .index
  segmentSize : next.segments.segmentSize = this.segments.segmentSize
  blockSize : next.segments.blockSize = this.segments.blockSize
  sfs : next.segments.sfs this.appendSegment = this.segments.sfs this.appendSegment
  appendSegment : next.appendSegment = this.appendSegment
  locked : next.locked = this.locked

/-- The stores that are reached when every call of `ifs_append` meets the condition. -/
inductive Reachable : Store → Prop where
  | created {segments : Segments} {count : Nat} {expired : Nat → Bool} {created : Bool}
      {this : Store} (sized : Sized count) (fits : segments.segmentSize < 2 ^ 31)
      (probes : ProbesInDirectory
        (formattedSuperBlock (oFat ||| oHashRootDir) segments.segmentSize segments.blockSize))
      (reliable : ∀ p, (segments.sfs p).io.Reliable)
      (run : create segments count expired created = some (.success, this)) : Reachable this
  | appended {this next : Store} {call : Call} {fuel rounds : Nat} {result : Except Failure Nat}
      (reachable : Reachable this) (small : call.fileId < 2 ^ 31)
      (meets : call.Meets fuel rounds this)
      (run : this.ifsAppend fuel rounds call = some (result, next)) : Reachable next
  | maintained {this next : Store} (reachable : Reachable this) (maintains : Maintains this next) :
      Reachable next

theorem tableUpdateLogicalSegment_enters {table : Table} {p : Nat}
    (sized : Sized table.segmentCountInSector)
    (small : p < maxSectorCount * table.segmentCountInSector) (empty : table.Holds []) :
    ∃ next, tableUpdateLogicalSegment table 0 (.segment p) = some (.success, next) ∧
      Enters table p [.segment p] next := by
  have first : table.logicalIndex 0 = .empty := empty.entry 0 (by decide)
  refine ⟨_, ?_, enters_setLogical sized small empty (.inl rfl) (by decide)⟩
  have old : table.readLogical 0 = some .empty := by
    rw [Table.readLogical, if_pos (by decide), first]
  have overwritten : tableOverwriteLogicalSegment table 0 (.segment p) =
      some (table.setLogical 0 (.segment p)) := if_pos (by decide)
  have updated : tableUpdatePhysicalSegment (table.setLogical 0 (.segment p)) p .allocated =
      (.success, _) := tableUpdatePhysicalSegment_eq sized small
  simp only [tableUpdateLogicalSegment, old, updateEntry, overwritten, updated, List.length_nil]

theorem create_sound {segments : Segments} {count : Nat} {expired : Nat → Bool} {created : Bool}
    {this : Store} (sized : Sized count) (fits : segments.segmentSize < 2 ^ 31)
    (probes : ProbesInDirectory
      (formattedSuperBlock (oFat ||| oHashRootDir) segments.segmentSize segments.blockSize))
    (reliable : ∀ p, (segments.sfs p).io.Reliable)
    (run : create segments count expired created = some (.success, this)) :
    this.Sound ∧ this.locked = false := by
  rcases @tableAllocate_cases (tableInit count) .index expired sized with
    ⟨p, table, found, allocates⟩ | ⟨table, full, _⟩
  · have counted : table.segmentCountInSector = count := allocates.keeps.segmentCountInSector
    have empty : table.Holds [] := by
      refine ⟨List.not_mem_nil, Nat.zero_le _, ?_⟩
      intro l _
      rw [allocates.keeps.logicalIndex]
      rfl
    have small : p < maxSectorCount * count := allocates.small
    obtain ⟨next, updated, entered⟩ := tableUpdateLogicalSegment_enters (p := p)
      (counted.symm ▸ sized) (counted.symm ▸ small) empty
    have counted' : next.segmentCountInSector = count :=
      entered.segmentCountInSector.trans counted
    simp only [create, found, updated] at run
    split at run
    · cases run
    · cases run
    · next opened activated =>
      cases run
      obtain ⟨before, formatted, io, accepted, rfl⟩ := Segments.sfsActivate_formatted activated
      obtain ⟨geo, laidOut, _, blank, _⟩ :=
        sfsFormat_probes (io ▸ reliable p) fits accepted probes
      refine ⟨?_, rfl⟩
      exact
        { sized := counted'.symm ▸ sized
          listed := ⟨[], entered.holds⟩
          small := counted'.symm ▸ small
          allocated := (entered.states p (counted.symm ▸ small)).trans (if_pos rfl)
          noIndex := by
            intro q inside
            rw [entered.states q (by rw [counted, ← counted']; exact inside)]
            split_ifs with own
            · decide
            · rw [allocates.others q (counted' ▸ inside) own, stateCleared]
              split
              · decide
              · exact SegmentState.noConfusion
          formattable := ⟨fits, ⟨_, _, accepted⟩, probes⟩
          mapped := by rw [Segments.put_self]
          holdsFiles := ⟨geo, _, _, _, laidOut, by
            rw [Segments.put_self]
            exact blank.reopen .mmap⟩ }
  · simp [create, full] at run

namespace Sound

variable {this next : Store}

theorem maintained (sound : this.Sound) (maintains : Maintains this next) : next.Sound where
  sized := maintains.segmentCountInSector ▸ sound.sized
  listed := maintains.appendSegment ▸ maintains.listed sound.listed
  small := by
    rw [maintains.appendSegment, maintains.segmentCountInSector]
    exact sound.small
  allocated := by
    rw [maintains.appendSegment, maintains.allocated]
    exact sound.allocated
  noIndex := by
    intro p small isIndex
    rw [maintains.segmentCountInSector] at small
    exact sound.noIndex p small (maintains.noIndex p small isIndex)
  formattable := by
    have formattable := sound.formattable
    refine ⟨?_, ?_, ?_⟩
    all_goals simp only [maintains.segmentSize, maintains.blockSize]
    · exact formattable.fits
    · exact formattable.accepted
    · exact formattable.probes
  mapped := by
    rw [maintains.appendSegment, maintains.sfs]
    exact sound.mapped
  holdsFiles := by
    rw [maintains.appendSegment, maintains.sfs, maintains.segmentSize, maintains.blockSize]
    exact sound.holdsFiles

theorem ifsAppend (sound : this.Sound) (released : this.locked = false) {call : Call}
    (small : call.fileId < 2 ^ 31) {fuel rounds : Nat} (meets : call.Meets fuel rounds this)
    {result : Except Failure Nat} (run : this.ifsAppend fuel rounds call = some (result, next)) :
    next.Sound ∧ next.locked = false ∧ ∀ failure, result = .error failure → this.Alike next := by
  rw [Store.ifsAppend] at run
  split at run
  · cases run
    exact ⟨sound, released, fun _ _ => Alike.refl _⟩
  · next taken =>
    obtain ⟨sound', released', failed⟩ := (sound.acquireLock true).appendRounds small
      (meets (by simpa using taken)) run
    refine ⟨sound', released', ?_⟩
    intro failure isError
    have alike := (failed failure isError).2
    exact ⟨alike.logicalIndex, alike.appendSegment, alike.segments⟩

end Sound

theorem Reachable.sound {this : Store} (reachable : Reachable this) :
    this.Sound ∧ this.locked = false := by
  induction reachable with
  | created sized fits probes reliable run => exact create_sound sized fits probes reliable run
  | appended _ small meets run before =>
    obtain ⟨sound, released, _⟩ := before.1.ifsAppend before.2 small meets run
    exact ⟨sound, released⟩
  | maintained _ maintains before =>
    exact ⟨before.1.maintained maintains, maintains.locked.trans before.2⟩

/-- Nothing fails, but for the opening of the files. -/
def aroundFrom (created : Bool) (_ : Nat) : Surroundings := ⟨fun _ => false, created, true, true⟩

theorem create_reachable : ∃ this,
    create (newSegments 4320 36) 4 (fun _ => false) true = some (.success, this) ∧
      Reachable this := by
  have done : (create (newSegments 4320 36) 4 (fun _ => false) true).map Prod.fst =
      some .success := by
    decide +kernel
  obtain ⟨⟨ret, this⟩, run, rfl⟩ := Option.map_eq_some_iff.mp done
  obtain ⟨formatted, accepted⟩ : ∃ formatted,
      sfsFormat newSegment (oFat ||| oHashRootDir) 4320 36 = some (.success, formatted) := ⟨_, rfl⟩
  obtain ⟨geo, laidOut, _⟩ :=
    sfsFormat_represents newSegment_reliable (by decide) (by decide) accepted
  refine ⟨this, run, .created ?_ ?_ ?_ (fun _ => newSegment_reliable) run⟩
  · exact ⟨by decide, by decide⟩
  · decide
  · exact laidOut.probesInDirectory (by decide)

theorem moveFileSegment_not_created {this : Segments} {fromSeg toSeg fuel : Nat} {geo : Geometry}
    {files : Nat → Part} {free : Nat} {chain : Nat → List Extent}
    (represents : Represents (this.sfs fromSeg) geo files free chain)
    (loaded : (this.sfs fromSeg).type ≠ .unload) (unloaded : (this.sfs toSeg).type = .unload) :
    ∃ segments, moveFileSegment fuel this fromSeg toSeg false = some (.fail, segments, []) := by
  obtain ⟨fileArray, got, _⟩ := represents.sfsGetFileArray
  have stays : this.closeOtherType toSeg .file = this := if_neg fun open_ => open_.1 unloaded
  have failed : this.sfsActivate toSeg .file true (oFat ||| oHashRootDir) false =
      some (.fail, this) := by
    rw [Segments.sfsActivate, stays]
    simp only [unloaded, ne_eq, not_true_eq_false, false_and, if_false, and_self, if_true]
  refine ⟨this.sfsDeactivate toSeg, ?_⟩
  simp only [moveFileSegment, if_neg loaded, sfsGetInfo, if_true, got, failed]

section

variable {this : Store} (sound : this.Sound) {fuel : Nat} {around : Surroundings} {p : Nat}
  {table : Table} (found : tableAllocate this.table .index around.expired = some (some p, table))

include found

include sound in
theorem rollOver_not_moved {segments : Segments} {chunks : List Chunk}
    (failed : moveFileSegment fuel this.segments this.appendSegment p around.created =
      some (.fail, segments, chunks)) :
    ∃ next, this.rollOver fuel around = some (.fail next) ∧
      p < maxSectorCount * next.table.segmentCountInSector ∧ next.table.stateOf p = .index := by
  rcases tableAllocate_cases sound.sized with ⟨q, other, found', allocates⟩ | ⟨_, full, _⟩
  · rw [found] at found'
    cases found'
    refine ⟨{ this with table := table, segments := segments }.releaseLock, ?_, ?_,
      allocates.recorded⟩
    · simp only [rollOver, found, releaseLock, failed]
    · exact allocates.keeps.segmentCountInSector.symm ▸ allocates.small
  · rw [found] at full
    cases full

theorem rollOver_not_formatted {segments : Segments} {chunks : List Chunk}
    (moved : moveFileSegment fuel this.segments this.appendSegment p around.created =
      some (.success, segments, chunks)) (locked : around.locked = true)
    (notFormatted : around.formatted = false) {progress : Progress}
    (run : this.rollOver fuel around = some progress) :
    ∃ next, progress = .fail next ∧ next.locked = true := by
  simp only [rollOver, found, releaseLock, moved, acquireLock, locked, if_true, listSegments] at run
  split at run
  · cases run
  · rw [formatAppendSegment, if_pos notFormatted] at run
    cases run
    exact ⟨_, rfl, rfl⟩

end

end Store

end Wisebot.Ifs
