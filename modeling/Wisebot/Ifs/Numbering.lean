import Mathlib.Algebra.Order.Ring.Int
import Wisebot.Ifs.Table
import Wisebot.Lib.Transition
import Wisebot.Sfs.SuperBlock

namespace Wisebot.Ifs

open Wisebot.Lib
open Wisebot.Sfs (OpenType)

/-! Numbers of physical segments in `_ifs_open` and the functions that open and close
segments (`modules/mod_ifs/mod_ifs.c`). -/

def maxFileCount : Nat := maxSectorCount

/-- The descriptors of the files of a process and the types of its open segments. -/
structure Local where
  sfsFd : Nat → Int
  sfs : Nat → Option OpenType

def Local.cleared : Local := ⟨fun _ => 0, fun _ => none⟩

/-- The results of `sb_open`, `sfs_create`, `sfs_format` and `sfs_open`. -/
structure Outcome where
  fd : Int
  created : Bool
  formatted : Bool
  opened : Bool

def fileOpen (this : Local) (sector : Nat) (outcome : Outcome) : Option (Ret × Local) :=
  if sector < maxFileCount then
    if this.sfsFd sector ≤ 0 then
      let opened := { this with sfsFd := Function.update this.sfsFd sector outcome.fd }
      some (if outcome.fd = -1 then .fail else .success, opened)
    else some (.success, this)
  else none

def sfsDeactivate (this : Local) (p : Nat) : Option Local :=
  if p < maxSectorCount * maxSegmentCount then
    if this.sfs p = none then some this
    else if p < maxFileCount then
      some ⟨Function.update this.sfsFd p 0, Function.update this.sfs p none⟩
    else none
  else none

def closeOtherType (this : Local) (p : Nat) (type : OpenType) : Option Local :=
  if p < maxSectorCount * maxSegmentCount then
    if this.sfs p = none ∨ this.sfs p = some type then some this else sfsDeactivate this p
  else none

def sfsCreate (this : Local) (count p : Nat) (outcome : Outcome) : Option (Ret × Local) :=
  match fileOpen this (tableGetSegmentInfo p count).sector outcome with
  | none => none
  | some (.fail, this) => some (.fail, this)
  | some (.success, this) =>
    if outcome.created then
      some (.success, { this with sfs := Function.update this.sfs p (some .unload) })
    else some (.fail, this)

def sfsActivate (this : Local) (count p : Nat) (type : OpenType) (doFormat : Bool)
    (outcome : Outcome) : Option (Ret × Local) :=
  match closeOtherType this p type with
  | none => none
  | some this =>
    if this.sfs p ≠ none ∧ doFormat = false then some (.success, this)
    else
      match (if this.sfs p = none then sfsCreate this count p outcome
        else some (.success, this)) with
      | none => none
      | some (.fail, this) => some (.fail, this)
      | some (.success, this) =>
        if doFormat = true ∧ outcome.formatted = false then some (.fail, this)
        else if outcome.opened then
          some (.success, { this with sfs := Function.update this.sfs p (some type) })
        else some (.fail, this)

/-- The mapping table, the descriptors of a process and the segments that `table_allocate`
has returned. -/
structure State where
  table : Table
  this : Local
  returned : List Nat

/-- `_ifs_open` where there is no index file system yet. -/
def ifsOpen (fileSize segmentSize blockSize : Int) (expired : Nat → Bool) (outcome : Outcome) :
    Option (Ret × State) :=
  if 0 < segmentSize ∧ fileSize.tmod segmentSize ≠ 0 then
    some (.fail, ⟨tableInit 0, .cleared, []⟩)
  else if segmentSize ≤ 0 ∨ blockSize ≤ 0 then some (.fail, ⟨tableInit 0, .cleared, []⟩)
  else
    match tableAllocate (tableInit (fileSize.tdiv segmentSize).toNat) .index expired with
    | none => none
    | some (none, table) => some (.fail, ⟨table, .cleared, []⟩)
    | some (some appendSegment, table) =>
      match tableUpdateLogicalSegment table 0 (.segment appendSegment) with
      | none => none
      | some (.fail, table) => some (.fail, ⟨table, .cleared, [appendSegment]⟩)
      | some (.success, table) =>
        match sfsActivate .cleared table.segmentCountInSector appendSegment .mmap true
          outcome with
        | none => none
        | some (ret, this) => some (ret, ⟨table, this, [appendSegment]⟩)

/-- The calls of the modules, by this process or by another one that shares the table. -/
inductive Call where
  | reopen
  | allocate (state : SegmentState) (expired : Nat → Bool)
  | clearTmpSegment (state : SegmentState) (expired : Nat → Bool)
  | updatePhysicalSegment (p : Nat) (state : SegmentState)
  | updateLastLogicalSegment (p : Nat)
  | appendLogicalSegment (p : Nat)
  | updateLogicalSegment (l : Nat) (entry : LogicalEntry)
  | overwriteLogicalSegment (l : Nat) (entry : LogicalEntry)
  | moveLogicalSegment (lstart ldest : Nat)
  | fixPhysicalSegmentState
  | clearDefragmentSfs
  | activate (p : Nat) (type : OpenType) (doFormat : Bool) (outcome : Outcome)
  | deactivate (p : Nat)

def State.withTable (state : State) : Option Table → Option State :=
  Option.map fun table => { state with table := table }

def State.withLocal (state : State) : Option Local → Option State :=
  Option.map fun this => { state with this := this }

def step (state : State) : Call → Option State
  | .reopen => some { state with this := .cleared }
  | .allocate segmentState expired =>
    match tableAllocate state.table segmentState expired with
    | none => none
    | some (none, table) => some { state with table := table }
    | some (some p, table) => some { state with table := table, returned := p :: state.returned }
  | .clearTmpSegment segmentState expired =>
    state.withTable ((tableClearTmpSegment state.table segmentState expired).map Prod.snd)
  | .updatePhysicalSegment p segmentState =>
    state.withTable (some (tableUpdatePhysicalSegment state.table p segmentState).2)
  | .updateLastLogicalSegment p => state.withTable (tableUpdateLastLogicalSegment state.table p)
  | .appendLogicalSegment p =>
    state.withTable (some (tableAppendLogicalSegment state.table p).2)
  | .updateLogicalSegment l entry =>
    state.withTable ((tableUpdateLogicalSegment state.table l entry).map Prod.snd)
  | .overwriteLogicalSegment l entry =>
    state.withTable (tableOverwriteLogicalSegment state.table l entry)
  | .moveLogicalSegment lstart ldest =>
    state.withTable ((tableMoveLogicalSegment state.table lstart ldest).map Prod.snd)
  | .fixPhysicalSegmentState => state.withTable (tableFixPhysicalSegmentState state.table)
  | .clearDefragmentSfs => state.withTable (clearDefragmentSfs state.table)
  | .activate p type doFormat outcome =>
    state.withLocal ((sfsActivate state.this state.table.segmentCountInSector p type doFormat
      outcome).map Prod.snd)
  | .deactivate p => state.withLocal (sfsDeactivate state.this p)

def LogicalEntry.number : LogicalEntry → List Nat
  | .segment p => [p]
  | _ => []

def Call.numbers : Call → List Nat
  | .updatePhysicalSegment p _ => [p]
  | .updateLastLogicalSegment p => [p]
  | .appendLogicalSegment p => [p]
  | .updateLogicalSegment _ entry => entry.number
  | .overwriteLogicalSegment _ entry => entry.number
  | .activate p _ _ _ => [p]
  | .deactivate p => [p]
  | _ => []

def Call.closes (this : Local) : Call → Option Nat
  | .activate p type _ _ =>
    if this.sfs p = none ∨ this.sfs p = some type then none else some p
  | .deactivate p => if this.sfs p = none then none else some p
  | _ => none

/-- Segment `p` is the number of its own sector, or it is the number of a sector without
an open file. -/
def OwnFile (state : State) (p : Nat) : Prop :=
  p < maxFileCount ∧
    (p = p / state.table.segmentCountInSector ∨ state.this.sfsFd p ≤ 0)

instance (state : State) (p : Nat) : Decidable (OwnFile state p) :=
  inferInstanceAs (Decidable (_ ∧ _))

/-- Calls get numbers that `table_allocate` has returned. -/
def Given (state : State) (call : Call) : Prop := ∀ p ∈ call.numbers, p ∈ state.returned

instance (state : State) (call : Call) : Decidable (Given state call) :=
  inferInstanceAs (Decidable (∀ p ∈ call.numbers, p ∈ state.returned))

/-- The segment that a call closes does not stand for the file of another sector. -/
def ClosesOwn (state : State) (call : Call) : Prop :=
  Given state call ∧ ∀ p ∈ call.closes state.this, OwnFile state p

instance (state : State) (call : Call) : Decidable (ClosesOwn state call) :=
  inferInstanceAs (Decidable (_ ∧ ∀ p ∈ call.closes state.this, OwnFile state p))

/-- Closing `p` stays in its arrays and leaves the open files of other sectors alone. -/
def ClosesOnlyOwn (state : State) (p : Nat) : Prop :=
  ∃ next, sfsDeactivate state.this p = some next ∧
    ∀ sector, sector ≠ p / state.table.segmentCountInSector → 0 < state.this.sfsFd sector →
      next.sfsFd sector = state.this.sfsFd sector

/-- The numbers that the functions compute from segments are inside of their arrays. -/
structure Numbered (state : State) : Prop where
  allocates : ∀ segmentState expired,
    (∃ p next, tableAllocate state.table segmentState expired = some (some p, next) ∧
        Allocates state.table segmentState expired p next) ∨
      ∃ next, tableAllocate state.table segmentState expired = some (none, next)
  clears : ∀ segmentState expired,
    (tableClearTmpSegment state.table segmentState expired).isSome
  updates : ∀ p ∈ state.returned, ∀ segmentState,
    (tableUpdatePhysicalSegment state.table p segmentState).1 = .success
  reads : ∀ p ∈ state.returned, (tableGetPhysicalSegmentState state.table p).isSome
  entries : ∀ l < maxLogicalCount, ∀ p, state.table.logicalIndex l = .segment p →
    p ∈ state.returned
  closes : ∀ p ∈ state.returned,
    ClosesOnlyOwn state p ↔ state.this.sfs p = none ∨ OwnFile state p

/-- The entries behind a call are entries that were there before or one that it was given. -/
structure Rewrites (before after : Table) (numbers : List Nat) : Prop where
  segmentCountInSector : after.segmentCountInSector = before.segmentCountInSector
  entries : ∀ l < maxLogicalCount, ∀ p, after.logicalIndex l = .segment p →
    (∃ old < maxLogicalCount, before.logicalIndex old = .segment p) ∨ p ∈ numbers

namespace Rewrites

variable {before middle after : Table} {numbers : List Nat}

theorem of_eq (logicalIndex : after.logicalIndex = before.logicalIndex)
    (segmentCountInSector : after.segmentCountInSector = before.segmentCountInSector) :
    Rewrites before after numbers where
  segmentCountInSector := segmentCountInSector
  entries := by
    intro l inside p isSegment
    rw [logicalIndex] at isSegment
    exact .inl ⟨l, inside, isSegment⟩

theorem of_keeps (keeps : Keeps before after) : Rewrites before after numbers :=
  of_eq keeps.logicalIndex keeps.segmentCountInSector

theorem trans (left : Rewrites before middle numbers) (right : Rewrites middle after numbers) :
    Rewrites before after numbers where
  segmentCountInSector := right.segmentCountInSector.trans left.segmentCountInSector
  entries := by
    intro l inside p isSegment
    rcases right.entries l inside p isSegment with ⟨old, oldInside, wasSegment⟩ | given
    · exact left.entries old oldInside p wasSegment
    · exact .inr given

theorem setLogical (table : Table) (l : Nat) (entry : LogicalEntry) :
    Rewrites table (table.setLogical l entry) entry.number where
  segmentCountInSector := rfl
  entries := by
    intro other inside p isSegment
    by_cases same : other = l
    · subst same
      have written : entry = .segment p := (Function.update_self ..).symm.trans isSegment
      exact .inr (by rw [written]; exact List.mem_singleton_self p)
    · have kept : table.logicalIndex other = .segment p :=
        (Function.update_of_ne same ..).symm.trans isSegment
      exact .inl ⟨other, inside, kept⟩

theorem moved (table : Table) {lstart ldest lcount : Nat}
    (room : lstart + lcount ≤ maxLogicalCount) :
    Rewrites table { table with
      logicalIndex := movedEntries table.logicalIndex lstart ldest lcount } numbers where
  segmentCountInSector := rfl
  entries := by
    intro l inside p isSegment
    left
    simp only [movedEntries] at isSegment
    split at isSegment
    · cases isSegment
    · split at isSegment
      · cases isSegment
      · split at isSegment
        · exact ⟨_, by omega, isSegment⟩
        · exact ⟨l, inside, isSegment⟩

end Rewrites

section Entries

variable {table next : Table} {p l lstart ldest : Nat} {entry : LogicalEntry} {ret : Ret}

theorem tableUpdateLastLogicalSegment_rewrites
    (ran : tableUpdateLastLogicalSegment table p = some next) : Rewrites table next [p] := by
  simp only [tableUpdateLastLogicalSegment] at ran
  split at ran
  · cases ran
  · cases ran
    have written := Rewrites.setLogical table (tableGetReadSegments table - 1) (.segment p)
    have updated := tableUpdatePhysicalSegment_keeps
      (table.setLogical (tableGetReadSegments table - 1) (.segment p)) p .allocated
    exact written.trans (.of_eq updated.logicalIndex updated.segmentCountInSector)

theorem tableAppendLogicalSegment_rewrites :
    Rewrites table (tableAppendLogicalSegment table p).2 [p] := by
  simp only [tableAppendLogicalSegment]
  split
  · exact (Rewrites.setLogical table _ (.segment p)).trans
      (.of_keeps (tableUpdatePhysicalSegment_keeps _ _ _))
  · exact .of_keeps (.refl table)

theorem tableOverwriteLogicalSegment_rewrites
    (ran : tableOverwriteLogicalSegment table l entry = some next) :
    Rewrites table next entry.number := by
  rw [tableOverwriteLogicalSegment] at ran
  split at ran
  · cases ran
    exact Rewrites.setLogical table l entry
  · cases ran

theorem tableUpdateLogicalSegment_rewrites
    (ran : tableUpdateLogicalSegment table l entry = some (ret, next)) :
    Rewrites table next entry.number := by
  rw [tableUpdateLogicalSegment] at ran
  split at ran
  · cases ran
  · next old _ =>
    have released := updateEntry_keeps table old .temp
    split at ran
    · next failed =>
      cases ran
      rw [failed] at released
      exact .of_keeps released
    · next done =>
      rw [done] at released
      split at ran
      · cases ran
      · next written overwritten =>
        have updated := updateEntry_keeps written entry .allocated
        rw [Option.some.injEq] at ran
        rw [ran] at updated
        exact (Rewrites.of_keeps released).trans
          ((tableOverwriteLogicalSegment_rewrites overwritten).trans (.of_keeps updated))

theorem tableMoveLogicalSegment_rewrites {numbers : List Nat}
    (ran : tableMoveLogicalSegment table lstart ldest = some (ret, next)) :
    Rewrites table next numbers := by
  simp only [tableMoveLogicalSegment] at ran
  split at ran
  · cases ran
    exact .of_keeps (.refl table)
  · split at ran
    · cases ran
    · next failed =>
      cases ran
      exact .of_keeps (releaseEntries_keeps failed)
    · next released =>
      split at ran
      · next room =>
        cases ran
        exact (Rewrites.of_keeps (releaseEntries_keeps released)).trans (.moved _ room.1)
      · cases ran

end Entries

/-- The count is the one of the configuration, and the numbers in circulation are below it. -/
structure Circulating (count : Nat) (state : State) : Prop where
  segmentCountInSector : state.table.segmentCountInSector = count
  small : ∀ p ∈ state.returned, p < maxSectorCount * count
  entries : ∀ l < maxLogicalCount, ∀ p, state.table.logicalIndex l = .segment p →
    p ∈ state.returned

namespace Circulating

variable {count : Nat} {state next : State} {call : Call}

theorem rewritten (circulating : Circulating count state) {table : Table} {numbers : List Nat}
    (rewrites : Rewrites state.table table numbers) (given : ∀ p ∈ numbers, p ∈ state.returned) :
    Circulating count { state with table := table } where
  segmentCountInSector :=
    rewrites.segmentCountInSector.trans circulating.segmentCountInSector
  small := circulating.small
  entries := by
    intro l inside p isSegment
    rcases rewrites.entries l inside p isSegment with ⟨old, oldInside, wasSegment⟩ | isGiven
    · exact circulating.entries old oldInside p wasSegment
    · exact given p isGiven

theorem withTable (circulating : Circulating count state) {result : Option Table}
    (rewrites : ∀ table, result = some table → Rewrites state.table table call.numbers)
    (given : Given state call) (stepped : state.withTable result = some next) :
    Circulating count next := by
  obtain ⟨table, isTable, rfl⟩ := Option.map_eq_some_iff.mp stepped
  exact circulating.rewritten (rewrites table isTable) given

theorem withLocal (circulating : Circulating count state) {result : Option Local}
    (stepped : state.withLocal result = some next) : Circulating count next := by
  obtain ⟨this, -, rfl⟩ := Option.map_eq_some_iff.mp stepped
  exact ⟨circulating.segmentCountInSector, circulating.small, circulating.entries⟩

theorem allocate (sized : Sized count) (circulating : Circulating count state)
    {segmentState : SegmentState} {expired : Nat → Bool}
    (stepped : step state (.allocate segmentState expired) = some next) :
    Circulating count next := by
  have own : Sized state.table.segmentCountInSector :=
    circulating.segmentCountInSector.symm ▸ sized
  have noneGiven : ∀ p ∈ ([] : List Nat), p ∈ state.returned := by simp
  simp only [step] at stepped
  rcases tableAllocate_cases own with ⟨p, table, result, allocates⟩ | ⟨table, result, exhausted⟩
  · rw [result] at stepped
    cases stepped
    have kept := circulating.rewritten (.of_keeps allocates.keeps) noneGiven
    refine ⟨kept.segmentCountInSector, ?_, ?_⟩
    · intro q member
      rcases List.mem_cons.mp member with rfl | old
      · rw [← circulating.segmentCountInSector]
        exact allocates.small
      · exact circulating.small q old
    · exact fun l inside q isSegment => List.mem_cons_of_mem p (kept.entries l inside q isSegment)
  · rw [result] at stepped
    cases stepped
    exact circulating.rewritten (.of_keeps exhausted.keeps) noneGiven

theorem preserved (sized : Sized count) (circulating : Circulating count state)
    (given : Given state call) (stepped : step state call = some next) :
    Circulating count next := by
  cases call with
  | reopen =>
    cases stepped
    exact ⟨circulating.segmentCountInSector, circulating.small, circulating.entries⟩
  | allocate segmentState expired => exact circulating.allocate sized stepped
  | clearTmpSegment segmentState expired =>
    refine circulating.withTable (fun table isTable => ?_) given stepped
    obtain ⟨⟨ret, cleared⟩, ran, rfl⟩ := Option.map_eq_some_iff.mp isTable
    exact .of_keeps (tableClearTmpSegment_keeps ran)
  | updatePhysicalSegment p segmentState =>
    refine circulating.withTable (fun table isTable => ?_) given stepped
    cases isTable
    exact .of_keeps (tableUpdatePhysicalSegment_keeps _ _ _)
  | updateLastLogicalSegment p =>
    exact circulating.withTable
      (fun table isTable => tableUpdateLastLogicalSegment_rewrites isTable) given stepped
  | appendLogicalSegment p =>
    refine circulating.withTable (fun table isTable => ?_) given stepped
    cases isTable
    exact tableAppendLogicalSegment_rewrites
  | updateLogicalSegment l entry =>
    refine circulating.withTable (fun table isTable => ?_) given stepped
    obtain ⟨⟨ret, updated⟩, ran, rfl⟩ := Option.map_eq_some_iff.mp isTable
    exact tableUpdateLogicalSegment_rewrites ran
  | overwriteLogicalSegment l entry =>
    exact circulating.withTable
      (fun table isTable => tableOverwriteLogicalSegment_rewrites isTable) given stepped
  | moveLogicalSegment lstart ldest =>
    refine circulating.withTable (fun table isTable => ?_) given stepped
    obtain ⟨⟨ret, moved⟩, ran, rfl⟩ := Option.map_eq_some_iff.mp isTable
    exact tableMoveLogicalSegment_rewrites ran
  | fixPhysicalSegmentState =>
    exact circulating.withTable
      (fun table isTable => .of_keeps (tableFixPhysicalSegmentState_keeps isTable)) given stepped
  | clearDefragmentSfs =>
    exact circulating.withTable
      (fun table isTable => .of_keeps (clearDefragmentSfs_keeps isTable)) given stepped
  | activate p type doFormat outcome => exact circulating.withLocal stepped
  | deactivate p => exact circulating.withLocal stepped

end Circulating

theorem closesOnlyOwn_iff {state : State} {p : Nat}
    (small : p < maxSectorCount * maxSegmentCount) :
    ClosesOnlyOwn state p ↔ state.this.sfs p = none ∨ OwnFile state p := by
  by_cases isClosed : state.this.sfs p = none
  · have result : sfsDeactivate state.this p = some state.this := by
      rw [sfsDeactivate, if_pos small, if_pos isClosed]
    exact ⟨fun _ => .inl isClosed, fun _ => ⟨_, result, fun _ _ _ => rfl⟩⟩
  · have result : sfsDeactivate state.this p =
        if p < maxFileCount then
          some ⟨Function.update state.this.sfsFd p 0, Function.update state.this.sfs p none⟩
        else none := by
      rw [sfsDeactivate, if_pos small, if_neg isClosed]
    constructor
    · rintro ⟨next, closed, others⟩
      rw [result] at closed
      split at closed
      · next inside =>
        cases closed
        refine .inr ⟨inside, ?_⟩
        by_cases own : p = p / state.table.segmentCountInSector
        · exact .inl own
        · by_cases open' : 0 < state.this.sfsFd p
          · have kept : (0 : Int) = state.this.sfsFd p :=
              (Function.update_self ..).symm.trans (others p own open')
            omega
          · exact .inr (Int.not_lt.mp open')
      · cases closed
    · rintro (closed | ⟨inside, own⟩)
      · exact absurd closed isClosed
      · rw [if_pos inside] at result
        refine ⟨_, result, fun sector other isOpen => ?_⟩
        have different : sector ≠ p := by
          rintro rfl
          rcases own with same | notOpen
          · exact other same
          · omega
        exact Function.update_of_ne different ..

theorem Circulating.numbered {count : Nat} {state : State} (sized : Sized count)
    (circulating : Circulating count state) : Numbered state := by
  have own : Sized state.table.segmentCountInSector :=
    circulating.segmentCountInSector.symm ▸ sized
  have small : ∀ p ∈ state.returned, p < maxSectorCount * state.table.segmentCountInSector := by
    rw [circulating.segmentCountInSector]
    exact circulating.small
  refine
    { allocates := ?_
      clears := ?_
      updates := ?_
      reads := ?_
      entries := circulating.entries
      closes := ?_ }
  · intro segmentState expired
    rcases tableAllocate_cases own with allocated | ⟨table, result, -⟩
    · exact .inl allocated
    · exact .inr ⟨table, result⟩
  · intro segmentState expired
    by_cases isAllocated : segmentState = .allocated
    · simp [tableClearTmpSegment, isAllocated]
    · rw [tableClearTmpSegment_eq own isAllocated]
      rfl
  · intro p member segmentState
    rw [tableUpdatePhysicalSegment_eq own (small p member)]
  · intro p member
    rw [tableGetPhysicalSegmentState_eq own (small p member)]
    rfl
  · intro p member
    exact closesOnlyOwn_iff ((small p member).trans_le (Nat.mul_le_mul_left _ own.fits))

theorem tableClearTmpSegment_eq_none {count : Nat} {expired : Nat → Bool} {table : Table}
    (isCount : table.segmentCountInSector = count) (tooMany : maxSegmentCount < count) :
    tableClearTmpSegment table .temp expired = none := by
  have member : (⟨0, maxSegmentCount⟩ : SegmentInfo) ∈ segmentInfos count :=
    mem_segmentInfos.mpr ⟨by decide, tooMany⟩
  have fails : ∀ (infos : List SegmentInfo) (before : Table),
      before.segmentCountInSector = count → ⟨0, maxSegmentCount⟩ ∈ infos →
      infos.foldlM (clearSegment .temp expired) before = none := by
    intro infos
    induction infos with
    | nil => intro _ _ outside; cases outside
    | cons info rest induction =>
      intro before isBefore inside
      rw [List.foldlM_cons, Option.bind_eq_bind, Option.bind_eq_none_iff]
      intro next stepped
      rcases List.mem_cons.mp inside with rfl | inRest
      · have outside : tableGetPhysicalSegmentState before
            (tableGetIndex ⟨0, maxSegmentCount⟩ before.segmentCountInSector) = none := by
          rw [isBefore, tableGetPhysicalSegmentState, isBefore, tableGetIndex,
            tableGetSegmentInfo, Nat.zero_mul, Nat.zero_add, Nat.mod_eq_of_lt tooMany]
          have beyond : ¬ maxSegmentCount % 2 ^ segmentMaxBit < maxSegmentCount := by decide
          exact if_neg fun inBounds => beyond inBounds.2
        simp only [clearSegment, outside] at stepped
        cases stepped
      · have kept := (clearSegment_keeps stepped).segmentCountInSector
        exact induction next (kept.trans isBefore) inRest
  rw [tableClearTmpSegment, if_neg (by decide), isCount, fails _ table isCount member]

section Opening

variable {fileSize segmentSize blockSize : Int} {expired : Nat → Bool} {outcome : Outcome}

/-- The sizes with which `_ifs_open` makes a new index file system. -/
structure AcceptsSizes (fileSize segmentSize blockSize : Int) : Prop where
  file : 0 < fileSize
  segment : 0 < segmentSize
  block : 0 < blockSize
  whole : fileSize.tmod segmentSize = 0

def segmentCount (fileSize segmentSize : Int) : Nat := (fileSize.tdiv segmentSize).toNat

theorem AcceptsSizes.positive (accepts : AcceptsSizes fileSize segmentSize blockSize) :
    0 < segmentCount fileSize segmentSize := by
  have file := accepts.file
  have whole := Int.mul_tdiv_add_tmod fileSize segmentSize
  rw [accepts.whole, Int.add_zero] at whole
  have product : 0 < segmentSize * fileSize.tdiv segmentSize := by omega
  have quotient : 0 < fileSize.tdiv segmentSize :=
    (pos_iff_pos_of_mul_pos product).mp accepts.segment
  rw [segmentCount]
  omega

theorem sfsActivate_cleared {count p : Nat} (sized : Sized count)
    (small : p < maxSectorCount * count) :
    (sfsActivate .cleared count p .mmap true outcome).isSome := by
  have inside : p < maxSectorCount * maxSegmentCount :=
    small.trans_le (Nat.mul_le_mul_left _ sized.fits)
  have closed : closeOtherType .cleared p .mmap = some .cleared := by
    rw [closeOtherType, if_pos inside, if_pos (.inl rfl)]
  have sector : (tableGetSegmentInfo p count).sector < maxFileCount :=
    (sized.inBounds (sized.info_mem small)).1
  have fresh : Local.cleared.sfs p = none := rfl
  simp only [sfsActivate, closed, fresh, ne_eq, not_true_eq_false, false_and, if_false, if_true,
    sfsCreate, fileOpen, if_pos sector]
  split
  · next failed =>
    split at failed
    · next created =>
      split at created
      · split at created
        · cases created
        · cases created
      · cases created
    · cases failed
    · split at failed
      · cases failed
      · cases failed
  · rfl
  · split
    · rfl
    · split
      · rfl
      · rfl

theorem ifsOpen_circulating (accepts : AcceptsSizes fileSize segmentSize blockSize)
    (fits : segmentCount fileSize segmentSize ≤ maxSegmentCount) :
    ∃ ret start, ifsOpen fileSize segmentSize blockSize expired outcome = some (ret, start) ∧
      Circulating (segmentCount fileSize segmentSize) start := by
  have sized : Sized (segmentCount fileSize segmentSize) := ⟨accepts.positive, fits⟩
  have divides : ¬ (0 < segmentSize ∧ fileSize.tmod segmentSize ≠ 0) :=
    fun other => other.2 accepts.whole
  have someSizes : ¬ (segmentSize ≤ 0 ∨ blockSize ≤ 0) :=
    fun other => other.elim accepts.segment.not_ge accepts.block.not_ge
  have fresh : Circulating (segmentCount fileSize segmentSize)
      ⟨tableInit (segmentCount fileSize segmentSize), .cleared, []⟩ :=
    ⟨rfl, by simp, fun _ _ _ isSegment => by cases isSegment⟩
  have noneGiven : ∀ p ∈ ([] : List Nat), p ∈ ([] : List Nat) := fun _ => id
  rw [ifsOpen, if_neg divides, if_neg someSizes, ← segmentCount]
  rcases @tableAllocate_cases (tableInit (segmentCount fileSize segmentSize)) .index expired sized
    with ⟨p, table, result, allocates⟩ | ⟨table, result, exhausted⟩
  · have stepped : step ⟨tableInit (segmentCount fileSize segmentSize), .cleared, []⟩
        (.allocate .index expired) = some ⟨table, .cleared, [p]⟩ := by
      rw [step, result]
    have allocated := fresh.allocate sized stepped
    have count : table.segmentCountInSector = segmentCount fileSize segmentSize :=
      allocates.keeps.segmentCountInSector
    have own : Sized table.segmentCountInSector := count.symm ▸ sized
    have small : p < maxSectorCount * table.segmentCountInSector :=
      count.symm ▸ allocates.small
    have listed : tableUpdateLogicalSegment table 0 (.segment p) =
        some (tableUpdatePhysicalSegment (table.setLogical 0 (.segment p)) p .allocated) := by
      have first : table.readLogical 0 = some .empty := by
        rw [Table.readLogical, if_pos (by decide), allocates.keeps.logicalIndex]
        rfl
      simp only [tableUpdateLogicalSegment, first, updateEntry, tableOverwriteLogicalSegment]
      rw [if_pos (by decide)]
    have success : (tableUpdatePhysicalSegment (table.setLogical 0 (.segment p)) p
        .allocated).1 = .success :=
      congrArg Prod.fst (@tableUpdatePhysicalSegment_eq (table.setLogical 0 (.segment p)) p
        .allocated own small)
    generalize tableUpdatePhysicalSegment (table.setLogical 0 (.segment p)) p .allocated =
      updated at listed success
    obtain ⟨ret, last⟩ := updated
    obtain rfl : ret = .success := success
    have rewrites := tableUpdateLogicalSegment_rewrites listed
    have circulating := allocated.rewritten rewrites (by simp [LogicalEntry.number])
    have opens := @sfsActivate_cleared outcome _ p sized (circulating.small p (by simp))
    rw [← circulating.segmentCountInSector] at opens
    obtain ⟨⟨ret, this⟩, opened⟩ := Option.isSome_iff_exists.mp opens
    refine ⟨ret, ⟨last, this, [p]⟩, ?_, ?_⟩
    · simp only [result, listed, opened]
    · exact ⟨circulating.segmentCountInSector, circulating.small, circulating.entries⟩
  · exact ⟨_, _, by rw [result], fresh.rewritten (.of_keeps exhausted.keeps) noneGiven⟩

theorem ifsOpen_eq_none (accepts : AcceptsSizes fileSize segmentSize blockSize)
    (tooMany : maxSegmentCount < segmentCount fileSize segmentSize) :
    ifsOpen fileSize segmentSize blockSize expired outcome = none := by
  have divides : ¬ (0 < segmentSize ∧ fileSize.tmod segmentSize ≠ 0) :=
    fun other => other.2 accepts.whole
  have someSizes : ¬ (segmentSize ≤ 0 ∨ blockSize ≤ 0) :=
    fun other => other.elim accepts.segment.not_ge accepts.block.not_ge
  have unread := @tableClearTmpSegment_eq_none _ expired
    (tableInit (segmentCount fileSize segmentSize)) rfl tooMany
  rw [ifsOpen, if_neg divides, if_neg someSizes, ← segmentCount]
  simp only [tableAllocate, unread]

end Opening

def Held (table : Table) (p : Nat) : Prop := table.stateOf p ≠ .empty ∧ table.stateOf p ≠ .temp

/-- The step leaves the segment in use. -/
def Keeping (p : Nat) (state : State) (call : Call) : Prop :=
  ClosesOwn state call ∧ ∀ next, step state call = some next → Held next.table p

theorem tableAllocate_not_held {table next : Table} {p : Nat} {segmentState : SegmentState}
    {expired : Nat → Bool} (sized : Sized table.segmentCountInSector)
    (result : tableAllocate table segmentState expired = some (some p, next)) :
    ¬ Held table p := by
  rintro ⟨notEmpty, notTemp⟩
  rcases @tableAllocate_cases table segmentState expired sized with
    ⟨other, after, isResult, allocates⟩ | ⟨after, isResult, -⟩
  · rw [result] at isResult
    cases isResult
    have wasFree := allocates.wasFree
    rw [stateCleared, if_neg fun cleared => notTemp cleared.1] at wasFree
    exact notEmpty wasFree
  · rw [result] at isResult
    cases isResult

theorem tableAllocate_held {table next : Table} {p : Nat} {segmentState : SegmentState}
    {expired : Nat → Bool} (sized : Sized table.segmentCountInSector)
    (inUse : segmentState ≠ .empty ∧ segmentState ≠ .temp)
    (result : tableAllocate table segmentState expired = some (some p, next)) : Held next p := by
  rcases @tableAllocate_cases table segmentState expired sized with
    ⟨other, after, isResult, allocates⟩ | ⟨after, isResult, -⟩
  · rw [result] at isResult
    cases isResult
    rw [Held, allocates.recorded]
    exact inUse
  · rw [result] at isResult
    cases isResult

/-- Every run stays inside of the arrays that starts with at most `MAX_SEGMENT_COUNT` segments
in a sector and closes a segment only when its number stands for its own file. -/
theorem run_numbers_inside {fileSize segmentSize blockSize : Int} {expired : Nat → Bool}
    {outcome : Outcome} (accepts : AcceptsSizes fileSize segmentSize blockSize) :
    ((ifsOpen fileSize segmentSize blockSize expired outcome).isSome ↔
      segmentCount fileSize segmentSize ≤ maxSegmentCount) ∧
    ∀ ret start, ifsOpen fileSize segmentSize blockSize expired outcome = some (ret, start) →
      ∀ state, Reach step ClosesOwn start state →
        Numbered state ∧
        ∀ p next segmentState others, segmentState ≠ .empty ∧ segmentState ≠ .temp →
          tableAllocate state.table segmentState others = some (some p, next) →
          ∀ later, Reach step (Keeping p)
              { state with table := next, returned := p :: state.returned } later →
            ∀ q last otherState lastOthers,
              tableAllocate later.table otherState lastOthers = some (some q, last) → q ≠ p := by
  rcases Nat.lt_or_ge maxSegmentCount (segmentCount fileSize segmentSize) with tooMany | fits
  · have undefined : ifsOpen fileSize segmentSize blockSize expired outcome = none :=
      ifsOpen_eq_none accepts tooMany
    rw [undefined]
    refine ⟨by simp [Nat.not_le_of_lt tooMany], fun ret start opened => ?_⟩
    cases opened
  · have sized : Sized (segmentCount fileSize segmentSize) := ⟨accepts.positive, fits⟩
    obtain ⟨ret, start, opened, circulating⟩ :=
      @ifsOpen_circulating _ _ _ expired outcome accepts fits
    rw [opened]
    refine ⟨by simp [fits], ?_⟩
    rintro _ _ ⟨⟩ state reached
    have now : Circulating (segmentCount fileSize segmentSize) state :=
      reached.invariant _ circulating fun _ _ _ inv closes stepped =>
        inv.preserved sized closes.1 stepped
    have own : Sized state.table.segmentCountInSector := now.segmentCountInSector.symm ▸ sized
    refine ⟨now.numbered sized, ?_⟩
    intro p next segmentState others inUse result later keeping q last otherState lastOthers again
    have allocated : step state (.allocate segmentState others) =
        some { state with table := next, returned := p :: state.returned } := by
      simp only [step, result]
    have both : Circulating (segmentCount fileSize segmentSize) later ∧ Held later.table p := by
      refine keeping.invariant
        (fun state => Circulating (segmentCount fileSize segmentSize) state ∧ Held state.table p)
        ⟨now.allocate sized allocated, tableAllocate_held own inUse result⟩ ?_
      intro before call after inv kept stepped
      exact ⟨inv.1.preserved sized kept.1.1 stepped, kept.2 after stepped⟩
    rintro rfl
    have lastOwn : Sized later.table.segmentCountInSector :=
      both.1.segmentCountInSector.symm ▸ sized
    exact tableAllocate_not_held lastOwn again both.2

/-- Files and descriptors open without errors. -/
def openedAs (fd : Int) : Outcome := ⟨fd, true, true, true⟩

def defaultOpen : Option (Ret × State) :=
  ifsOpen (1024 * 2 ^ 20) (256 * 2 ^ 20) 128 (fun _ => false) (openedAs 5)

theorem defaultSizes_accepts : AcceptsSizes (1024 * 2 ^ 20) (256 * 2 ^ 20) 128 :=
  ⟨by decide, by decide, by decide, by decide⟩

/-- The first segment is moved to a second one, which is closed again. -/
def oneRollover : List Call :=
  [.allocate .index fun _ => false, .activate 1 .file true (openedAs 6),
    .updateLastLogicalSegment 1, .appendLogicalSegment 0]

theorem run_numbers_inside_one_rollover :
    ∃ state, state.table.logicalIndex 0 = .segment 1 ∧ state.table.logicalIndex 1 = .segment 0 ∧
      Numbered state := by
  have ran : (defaultOpen.bind fun opened => runSchedule (guardedStep step ClosesOwn) opened.2
      oneRollover).any (fun state => state.table.logicalIndex 0 = .segment 1 ∧
        state.table.logicalIndex 1 = .segment 0) = true := by
    decide +kernel
  rw [Option.any_eq_true] at ran
  obtain ⟨state, isRun, shown⟩ := ran
  obtain ⟨⟨ret, start⟩, opened, scheduled⟩ := Option.bind_eq_some_iff.mp isRun
  have reached := Reach.of_guardedSchedule oneRollover .start scheduled
  have shown := of_decide_eq_true shown
  exact ⟨state, shown.1, shown.2,
    ((run_numbers_inside defaultSizes_accepts).2 ret start opened state reached).1⟩

/-- A segment of the second file and the second one of the first file are open. -/
def twoFiles : List Call :=
  [.allocate .defragment fun _ => false, .allocate .defragment fun _ => false,
    .allocate .defragment fun _ => false, .allocate .defragment fun _ => false,
    .activate 4 .file true (openedAs 6), .activate 1 .file true (openedAs 7)]

/-- To close the second segment of the first file takes the descriptor of the second file. -/
theorem close_takes_other_descriptor :
    ¬ ∀ (fileSize segmentSize blockSize : Int) (expired : Nat → Bool) (outcome : Outcome),
      AcceptsSizes fileSize segmentSize blockSize →
      ∀ ret start, ifsOpen fileSize segmentSize blockSize expired outcome = some (ret, start) →
        ∀ state, Reach step Given start state → ∀ p ∈ state.returned, ClosesOnlyOwn state p := by
  intro claim
  have ran : (defaultOpen.bind fun opened => runSchedule (guardedStep step Given) opened.2
      twoFiles).any (fun state => 1 ∈ state.returned ∧ state.this.sfs 1 ≠ none ∧
        ¬ OwnFile state 1) = true := by
    decide +kernel
  rw [Option.any_eq_true] at ran
  obtain ⟨state, isRun, shown⟩ := ran
  obtain ⟨⟨ret, start⟩, opened, scheduled⟩ := Option.bind_eq_some_iff.mp isRun
  have reached := Reach.of_guardedSchedule twoFiles .start scheduled
  obtain ⟨returned, isOpen, notOwn⟩ := of_decide_eq_true shown
  have closes := claim _ _ _ _ _ defaultSizes_accepts ret start opened state reached 1 returned
  exact ((closesOnlyOwn_iff (by decide)).mp closes).elim isOpen notOwn

end Wisebot.Ifs
