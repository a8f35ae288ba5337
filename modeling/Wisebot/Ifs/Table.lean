import Mathlib.Logic.Function.Basic
import Mathlib.Order.Basic
import Mathlib.Algebra.Ring.Nat

namespace Wisebot.Ifs

/-! The mapping table of the index file system (`modules/mod_ifs/table.c`): a
list of logical segments and the states of the physical ones. An access outside
of the arrays has no defined result (`none`). -/

inductive Ret where
  | success
  | fail
  deriving DecidableEq, Repr

inductive SegmentState where
  | empty
  | index
  | allocated
  | defragment
  | temp
  deriving DecidableEq, Repr

inductive LogicalEntry where
  | empty
  | notUse
  | segment (p : Nat)
  deriving DecidableEq, Repr

def maxSectorCount : Nat := 200

def maxSegmentCount : Nat := 16

def maxLogicalCount : Nat := maxSectorCount * maxSegmentCount * 2

def sectorMaxBit : Nat := 16

def segmentMaxBit : Nat := 16

/-- `logical_index` and the states of `physical_sector` as functions of their
indices; a sector and a segment in it. -/
structure Table where
  logicalIndex : Nat → LogicalEntry
  physicalSector : Nat → Nat → SegmentState
  segmentCountInSector : Nat
  allocatedPhysicalSector : Nat
  allocatedPhysicalSegment : Nat
  version : Nat

structure SegmentInfo where
  sector : Nat
  segment : Nat
  deriving DecidableEq, Repr

namespace SegmentInfo

/-- The place is inside of `physical_sector[MAX_SECTOR_COUNT].segment[MAX_SEGMENT_COUNT]`. -/
def InBounds (info : SegmentInfo) : Prop :=
  info.sector < maxSectorCount ∧ info.segment < maxSegmentCount

instance (info : SegmentInfo) : Decidable info.InBounds :=
  inferInstanceAs (Decidable (_ ∧ _))

end SegmentInfo

def tableGetIndex (seg : SegmentInfo) (count : Nat) : Nat := seg.sector * count + seg.segment

def tableGetSegmentInfo (index count : Nat) : SegmentInfo :=
  ⟨index / count % 2 ^ sectorMaxBit, index % count % 2 ^ segmentMaxBit⟩

namespace Table

def readState (table : Table) (info : SegmentInfo) : Option SegmentState :=
  if info.InBounds then some (table.physicalSector info.sector info.segment) else none

def setState (table : Table) (info : SegmentInfo) (state : SegmentState) : Table :=
  { table with
    physicalSector := Function.update table.physicalSector info.sector
      (Function.update (table.physicalSector info.sector) info.segment state) }

def readLogical (table : Table) (l : Nat) : Option LogicalEntry :=
  if l < maxLogicalCount then some (table.logicalIndex l) else none

def setLogical (table : Table) (l : Nat) (entry : LogicalEntry) : Table :=
  { table with logicalIndex := Function.update table.logicalIndex l entry }

def raise (table : Table) (sector p : Nat) : Table :=
  { table with
    allocatedPhysicalSector := max table.allocatedPhysicalSector sector
    allocatedPhysicalSegment := max table.allocatedPhysicalSegment p }

end Table

def tableUpdatePhysicalSegment (table : Table) (p : Nat) (state : SegmentState) :
    Ret × Table :=
  let info := tableGetSegmentInfo p table.segmentCountInSector
  if maxSegmentCount ≤ info.segment ∨ maxSectorCount ≤ info.sector then (.fail, table)
  else (.success, table.setState info state)

def tableGetPhysicalSegmentState (table : Table) (p : Nat) : Option SegmentState :=
  table.readState (tableGetSegmentInfo p table.segmentCountInSector)

def tableInit (count : Nat) : Table where
  logicalIndex := fun _ => .empty
  physicalSector := fun _ _ => .empty
  segmentCountInSector := count
  allocatedPhysicalSector := 0
  allocatedPhysicalSegment := 0
  version := 0

/-- The places that the loops over sectors and the segments in them visit. -/
def segmentInfos (count : Nat) : List SegmentInfo :=
  (List.range maxSectorCount).flatMap fun sector =>
    (List.range count).map fun segment => ⟨sector, segment⟩

/-- The body of the loop in `table_clear_tmp_segment`. -/
def clearSegment (state : SegmentState) (expired : Nat → Bool) (table : Table)
    (info : SegmentInfo) : Option Table :=
  let p := tableGetIndex info table.segmentCountInSector
  match tableGetPhysicalSegmentState table p with
  | none => none
  | some current =>
    if current ≠ state then some table
    else if state = .temp ∧ expired p = false then some table
    else some (tableUpdatePhysicalSegment table p .empty).2

/-- `expired` tells of which segments the last change is `temp_alive_time` ago. -/
def tableClearTmpSegment (table : Table) (state : SegmentState) (expired : Nat → Bool) :
    Option (Ret × Table) :=
  if state = .allocated then some (.fail, table)
  else
    match (segmentInfos table.segmentCountInSector).foldlM (clearSegment state expired) table with
    | none => none
    | some cleared => some (.success, cleared)

/-- The first place in state `EMPTY`. -/
def findEmpty (table : Table) : List SegmentInfo → Option (Option SegmentInfo)
  | [] => some none
  | info :: rest =>
    match table.readState info with
    | none => none
    | some current => if current = .empty then some (some info) else findEmpty table rest

def tableAllocate (table : Table) (state : SegmentState) (expired : Nat → Bool) :
    Option (Option Nat × Table) :=
  match tableClearTmpSegment table .temp expired with
  | none => none
  | some (_, cleared) =>
    match findEmpty cleared (segmentInfos cleared.segmentCountInSector) with
    | none => none
    | some none => some (none, cleared)
    | some (some info) =>
      let p := tableGetIndex info cleared.segmentCountInSector
      some (some p, (tableUpdatePhysicalSegment (cleared.raise info.sector p) p state).2)

/-- The first of the next entries that is `EMPTY`, or the entry behind them. -/
def firstEmpty (table : Table) : (remaining l : Nat) → Nat
  | 0, l => l
  | remaining + 1, l =>
    if table.logicalIndex l = .empty then l else firstEmpty table remaining (l + 1)

/-- The number of entries; the entries are copied too. -/
def tableGetReadSegments (table : Table) : Nat := firstEmpty table maxLogicalCount 0

/-- In a full table the loop reads the entry behind the last one. -/
def tableUpdateLastLogicalSegment (table : Table) (p : Nat) : Option Table :=
  let count := tableGetReadSegments table
  if count = maxLogicalCount ∨ count = 0 then none
  else
    let updated := (tableUpdatePhysicalSegment (table.setLogical (count - 1) (.segment p)) p
      .allocated).2
    some { updated with version := (updated.version + 1) % 2 ^ 32 }

def tableAppendLogicalSegment (table : Table) (p : Nat) : Ret × Table :=
  let count := tableGetReadSegments table
  if count < maxLogicalCount then
    (.success, (tableUpdatePhysicalSegment (table.setLogical count (.segment p)) p .allocated).2)
  else (.fail, table)

def tableOverwriteLogicalSegment (table : Table) (l : Nat) (entry : LogicalEntry) :
    Option Table :=
  if l < maxLogicalCount then some (table.setLogical l entry) else none

def updateEntry (table : Table) (entry : LogicalEntry) (state : SegmentState) : Ret × Table :=
  match entry with
  | .segment p => tableUpdatePhysicalSegment table p state
  | _ => (.success, table)

def tableUpdateLogicalSegment (table : Table) (l : Nat) (entry : LogicalEntry) :
    Option (Ret × Table) :=
  match table.readLogical l with
  | none => none
  | some old =>
    match updateEntry table old .temp with
    | (.fail, table) => some (.fail, table)
    | (.success, released) =>
      match tableOverwriteLogicalSegment released l entry with
      | none => none
      | some overwritten => some (updateEntry overwritten entry .allocated)

/-- The segments of the next entries become `TEMP`. -/
def releaseEntries (table : Table) : (remaining l : Nat) → Option (Ret × Table)
  | 0, _ => some (.success, table)
  | remaining + 1, l =>
    match table.readLogical l with
    | none => none
    | some entry =>
      match updateEntry table entry .temp with
      | (.fail, table) => some (.fail, table)
      | (.success, table) => releaseEntries table remaining (l + 1)

/-- The entries behind the move of `lcount` entries: `NOT_USE` in a gap in front of them and
`EMPTY` behind them. -/
def movedEntries (logicalIndex : Nat → LogicalEntry) (lstart ldest lcount : Nat) :
    Nat → LogicalEntry := fun l =>
  if lstart ≤ l ∧ l < ldest then .notUse
  else if ldest + lcount ≤ l ∧ l < lstart + lcount then .empty
  else if ldest ≤ l ∧ l < ldest + lcount then logicalIndex (lstart + (l - ldest))
  else logicalIndex l

/-- `lcount` is the place of the first `EMPTY` entry behind `lstart`; as many entries are
moved. -/
def tableMoveLogicalSegment (table : Table) (lstart ldest : Nat) : Option (Ret × Table) :=
  if lstart = ldest then some (.success, table)
  else
    let lcount := firstEmpty table (maxLogicalCount - (lstart + 1)) (lstart + 1)
    match releaseEntries table (lstart - ldest) ldest with
    | none => none
    | some (.fail, table) => some (.fail, table)
    | some (.success, released) =>
      if lstart + lcount ≤ maxLogicalCount ∧ ldest + lcount ≤ maxLogicalCount then
        some (.success, { released with
          logicalIndex := movedEntries released.logicalIndex lstart ldest lcount })
      else none

/-- Whether one of the next entries in front of the first `EMPTY` one is the segment. -/
def tableGetLogicalSegment (table : Table) (p : Nat) : (remaining l : Nat) → Bool
  | 0, _ => false
  | remaining + 1, l =>
    if table.logicalIndex l = .segment p then true
    else if table.logicalIndex l = .empty then false
    else tableGetLogicalSegment table p remaining (l + 1)

/-- The body of the loop in `table_fix_physical_segment_state`. -/
def fixSegment (table : Table) (info : SegmentInfo) : Option Table :=
  match table.readState info with
  | none => none
  | some state =>
    let p := tableGetIndex info table.segmentCountInSector
    let listed := tableGetLogicalSegment table p maxLogicalCount 0
    if state = .allocated ∧ listed = false then
      some (tableUpdatePhysicalSegment table p .temp).2
    else if state ≠ .allocated ∧ listed = true then
      some (tableUpdatePhysicalSegment table p .allocated).2
    else some table

def tableFixPhysicalSegmentState (table : Table) : Option Table :=
  (segmentInfos table.segmentCountInSector).foldlM fixSegment table

/-- `__clear_defragment_sfs` of `mod_ifs_defrag.c`. -/
def clearDefragmentSegment (table : Table) (info : SegmentInfo) : Option Table :=
  match table.readState info with
  | none => none
  | some current => some (if current = .defragment then table.setState info .empty else table)

def clearDefragmentSfs (table : Table) : Option Table :=
  (segmentInfos table.segmentCountInSector).foldlM clearDefragmentSegment table

theorem mem_segmentInfos {count : Nat} {info : SegmentInfo} :
    info ∈ segmentInfos count ↔ info.sector < maxSectorCount ∧ info.segment < count := by
  obtain ⟨sector, segment⟩ := info
  simp only [segmentInfos, List.mem_flatMap, List.mem_range, List.mem_map, SegmentInfo.mk.injEq]
  constructor
  · rintro ⟨_, sectorFits, _, segmentFits, rfl, rfl⟩
    exact ⟨sectorFits, segmentFits⟩
  · intro fits
    exact ⟨sector, fits.1, segment, fits.2, rfl, rfl⟩

structure Sized (count : Nat) : Prop where
  positive : 0 < count
  fits : count ≤ maxSegmentCount

namespace Sized

variable {count p q : Nat}

theorem index_lt {info : SegmentInfo} (inside : info ∈ segmentInfos count) :
    tableGetIndex info count < maxSectorCount * count := by
  obtain ⟨sectorFits, segmentFits⟩ := mem_segmentInfos.mp inside
  calc tableGetIndex info count < info.sector * count + count :=
        Nat.add_lt_add_left segmentFits _
    _ = (info.sector + 1) * count := (Nat.succ_mul _ _).symm
    _ ≤ maxSectorCount * count := Nat.mul_le_mul_right count sectorFits

theorem sector_lt (small : p < maxSectorCount * count) : p / count < maxSectorCount :=
  Nat.div_lt_of_lt_mul (by rwa [Nat.mul_comm])

variable (sized : Sized count)

include sized

theorem index_info {info : SegmentInfo} (inside : info ∈ segmentInfos count) :
    tableGetSegmentInfo (tableGetIndex info count) count = info := by
  obtain ⟨sectorFits, segmentFits⟩ := mem_segmentInfos.mp inside
  have fits := sized.fits
  simp only [maxSectorCount, maxSegmentCount] at sectorFits fits
  obtain ⟨sector, segment⟩ := info
  have quotient : (sector * count + segment) / count = sector := by
    rw [Nat.mul_comm, Nat.mul_add_div sized.positive, Nat.div_eq_of_lt segmentFits, Nat.add_zero]
  have remainder : (sector * count + segment) % count = segment := by
    rw [Nat.mul_comm, Nat.mul_add_mod, Nat.mod_eq_of_lt segmentFits]
  have smallSector : sector < 2 ^ sectorMaxBit := sectorFits.trans (by decide)
  have smallSegment : segment < 2 ^ segmentMaxBit := (segmentFits.trans_le fits).trans (by decide)
  simp only [tableGetSegmentInfo, tableGetIndex, quotient, remainder,
    Nat.mod_eq_of_lt smallSector, Nat.mod_eq_of_lt smallSegment]

theorem inBounds {info : SegmentInfo} (inside : info ∈ segmentInfos count) : info.InBounds :=
  ⟨(mem_segmentInfos.mp inside).1, (mem_segmentInfos.mp inside).2.trans_le sized.fits⟩

theorem info_eq (small : p < maxSectorCount * count) :
    tableGetSegmentInfo p count = ⟨p / count, p % count⟩ := by
  have sectorFits := sector_lt small
  have segmentFits := (Nat.mod_lt p sized.positive).trans_le sized.fits
  rw [tableGetSegmentInfo, Nat.mod_eq_of_lt (sectorFits.trans (by decide)),
    Nat.mod_eq_of_lt (segmentFits.trans (by decide))]

theorem info_mem (small : p < maxSectorCount * count) :
    tableGetSegmentInfo p count ∈ segmentInfos count := by
  rw [sized.info_eq small]
  exact mem_segmentInfos.mpr ⟨sector_lt small, Nat.mod_lt p sized.positive⟩

theorem info_index (small : p < maxSectorCount * count) :
    tableGetIndex (tableGetSegmentInfo p count) count = p := by
  rw [sized.info_eq small]
  exact Nat.div_add_mod' p count

theorem info_injective (small : p < maxSectorCount * count) (alsoSmall : q < maxSectorCount * count)
    (same : tableGetSegmentInfo p count = tableGetSegmentInfo q count) : p = q := by
  rw [← sized.info_index small, ← sized.info_index alsoSmall, same]

end Sized

namespace Table

def stateOf (table : Table) (p : Nat) : SegmentState :=
  let info := tableGetSegmentInfo p table.segmentCountInSector
  table.physicalSector info.sector info.segment

@[simp] theorem setState_segmentCountInSector (table : Table) (info : SegmentInfo)
    (state : SegmentState) :
    (table.setState info state).segmentCountInSector = table.segmentCountInSector := rfl

theorem setState_physicalSector (table : Table) (info : SegmentInfo) (state : SegmentState)
    (sector segment : Nat) :
    (table.setState info state).physicalSector sector segment =
      if info = ⟨sector, segment⟩ then state else table.physicalSector sector segment := by
  obtain ⟨ownSector, ownSegment⟩ := info
  simp only [setState, SegmentInfo.mk.injEq]
  by_cases sameSector : ownSector = sector
  · subst sameSector
    by_cases sameSegment : ownSegment = segment
    · simp [sameSegment]
    · simp [sameSegment, Function.update_of_ne (Ne.symm sameSegment)]
  · simp [sameSector, Function.update_of_ne (Ne.symm sameSector)]

variable {table : Table} {p q : Nat} {state : SegmentState}

theorem setState_stateOf {info : SegmentInfo} :
    (table.setState info state).stateOf q =
      if info = tableGetSegmentInfo q table.segmentCountInSector then state
      else table.stateOf q :=
  setState_physicalSector table info state _ _

end Table

/-- Only the states of physical segments differ, and the counts of what was given out. -/
structure Keeps (before after : Table) : Prop where
  logicalIndex : after.logicalIndex = before.logicalIndex
  segmentCountInSector : after.segmentCountInSector = before.segmentCountInSector
  version : after.version = before.version

namespace Keeps

variable {before middle after : Table}

theorem refl (table : Table) : Keeps table table := ⟨rfl, rfl, rfl⟩

theorem trans (left : Keeps before middle) (right : Keeps middle after) : Keeps before after :=
  ⟨right.logicalIndex.trans left.logicalIndex,
    right.segmentCountInSector.trans left.segmentCountInSector, right.version.trans left.version⟩

theorem foldlM {body : Table → SegmentInfo → Option Table}
    (step : ∀ table info next, body table info = some next → Keeps table next)
    {infos : List SegmentInfo} (ran : infos.foldlM body before = some after) :
    Keeps before after := by
  induction infos generalizing before with
  | nil =>
    cases ran
    exact refl _
  | cons info rest induction =>
    rw [List.foldlM_cons, Option.bind_eq_bind, Option.bind_eq_some_iff] at ran
    obtain ⟨next, first, others⟩ := ran
    exact (step _ _ _ first).trans (induction others)

end Keeps

theorem tableUpdatePhysicalSegment_keeps (table : Table) (p : Nat) (state : SegmentState) :
    Keeps table (tableUpdatePhysicalSegment table p state).2 := by
  simp only [tableUpdatePhysicalSegment]
  split
  · exact .refl table
  · exact ⟨rfl, rfl, rfl⟩

theorem updateEntry_keeps (table : Table) (entry : LogicalEntry) (state : SegmentState) :
    Keeps table (updateEntry table entry state).2 := by
  cases entry with
  | empty => exact .refl table
  | notUse => exact .refl table
  | segment p => exact tableUpdatePhysicalSegment_keeps table p state

theorem releaseEntries_keeps {table released : Table} {remaining l : Nat} {ret : Ret}
    (ran : releaseEntries table remaining l = some (ret, released)) : Keeps table released := by
  induction remaining generalizing table l with
  | zero =>
    cases ran
    exact .refl _
  | succ remaining induction =>
    rw [releaseEntries] at ran
    split at ran
    · cases ran
    · next entry _ =>
      have first := updateEntry_keeps table entry .temp
      split at ran
      · next failed =>
        cases ran
        rwa [failed] at first
      · next updated =>
        rw [updated] at first
        exact first.trans (induction ran)

theorem clearSegment_keeps {table next : Table} {state : SegmentState} {expired : Nat → Bool}
    {info : SegmentInfo} (stepped : clearSegment state expired table info = some next) :
    Keeps table next := by
  simp only [clearSegment] at stepped
  split at stepped
  · cases stepped
  · split at stepped
    · cases stepped
      exact .refl table
    · split at stepped
      · cases stepped
        exact .refl table
      · cases stepped
        exact tableUpdatePhysicalSegment_keeps _ _ _

theorem tableClearTmpSegment_keeps {table cleared : Table} {state : SegmentState}
    {expired : Nat → Bool} {ret : Ret}
    (ran : tableClearTmpSegment table state expired = some (ret, cleared)) :
    Keeps table cleared := by
  rw [tableClearTmpSegment] at ran
  split at ran
  · cases ran
    exact .refl table
  · split at ran
    · cases ran
    · next folded =>
      cases ran
      exact Keeps.foldlM (fun _ _ _ stepped => clearSegment_keeps stepped) folded

theorem clearDefragmentSfs_keeps {table cleared : Table}
    (ran : clearDefragmentSfs table = some cleared) : Keeps table cleared := by
  refine Keeps.foldlM (fun table info next stepped => ?_) ran
  simp only [clearDefragmentSegment] at stepped
  split at stepped
  · cases stepped
  · cases stepped
    split
    · exact ⟨rfl, rfl, rfl⟩
    · exact .refl table

theorem tableFixPhysicalSegmentState_keeps {table fixed : Table}
    (ran : tableFixPhysicalSegmentState table = some fixed) : Keeps table fixed := by
  refine Keeps.foldlM (fun table info next stepped => ?_) ran
  simp only [fixSegment] at stepped
  split at stepped
  · cases stepped
  · split at stepped
    · cases stepped
      exact tableUpdatePhysicalSegment_keeps _ _ _
    · split at stepped
      · cases stepped
        exact tableUpdatePhysicalSegment_keeps _ _ _
      · cases stepped
        exact .refl table

section Updating

variable {table : Table} {p q : Nat} {state : SegmentState}

theorem tableUpdatePhysicalSegment_eq (sized : Sized table.segmentCountInSector)
    (small : p < maxSectorCount * table.segmentCountInSector) :
    tableUpdatePhysicalSegment table p state =
      (.success, table.setState (tableGetSegmentInfo p table.segmentCountInSector) state) := by
  have inside := sized.inBounds (sized.info_mem small)
  exact if_neg fun outside =>
    outside.elim (Nat.not_le_of_lt inside.2) (Nat.not_le_of_lt inside.1)

theorem tableUpdatePhysicalSegment_stateOf (sized : Sized table.segmentCountInSector)
    (small : p < maxSectorCount * table.segmentCountInSector)
    (alsoSmall : q < maxSectorCount * table.segmentCountInSector) :
    (tableUpdatePhysicalSegment table p state).2.stateOf q =
      if q = p then state else table.stateOf q := by
  rw [tableUpdatePhysicalSegment_eq sized small]
  refine Table.setState_stateOf.trans ?_
  by_cases same : q = p
  · rw [if_pos same, same, if_pos rfl]
  · rw [if_neg same, if_neg fun sameInfo => same (sized.info_injective small alsoSmall sameInfo).symm]

theorem tableUpdatePhysicalSegment_setState (sized : Sized table.segmentCountInSector)
    {info : SegmentInfo} (inside : info ∈ segmentInfos table.segmentCountInSector) :
    tableUpdatePhysicalSegment table (tableGetIndex info table.segmentCountInSector) state =
      (.success, table.setState info state) := by
  rw [tableUpdatePhysicalSegment_eq sized (Sized.index_lt inside), sized.index_info inside]

theorem tableGetPhysicalSegmentState_eq (sized : Sized table.segmentCountInSector)
    (small : p < maxSectorCount * table.segmentCountInSector) :
    tableGetPhysicalSegmentState table p = some (table.stateOf p) :=
  if_pos (sized.inBounds (sized.info_mem small))

end Updating

/-- `table_clear_tmp_segment` empties the segment. -/
def Clears (table : Table) (state : SegmentState) (expired : Nat → Bool)
    (info : SegmentInfo) : Prop :=
  table.physicalSector info.sector info.segment = state ∧
    (state = .temp → expired (tableGetIndex info table.segmentCountInSector) = true)

instance (table : Table) (state : SegmentState) (expired : Nat → Bool) (info : SegmentInfo) :
    Decidable (Clears table state expired info) :=
  inferInstanceAs (Decidable (_ ∧ (_ → _)))

/-- The table when `table_clear_tmp_segment` has visited some places. -/
def clearedTable (table : Table) (state : SegmentState) (expired : Nat → Bool)
    (infos : List SegmentInfo) : Table :=
  { table with
    physicalSector := fun sector segment =>
      if ⟨sector, segment⟩ ∈ infos ∧ Clears table state expired ⟨sector, segment⟩ then .empty
      else table.physicalSector sector segment }

section Clearing

variable {table : Table} {state : SegmentState} {expired : Nat → Bool}

theorem clearSegment_eq (sized : Sized table.segmentCountInSector) {info : SegmentInfo}
    (inside : info ∈ segmentInfos table.segmentCountInSector) :
    clearSegment state expired table info =
      some (if Clears table state expired info then table.setState info .empty else table) := by
  have current : tableGetPhysicalSegmentState table
      (tableGetIndex info table.segmentCountInSector) =
        some (table.physicalSector info.sector info.segment) := by
    rw [tableGetPhysicalSegmentState_eq sized (Sized.index_lt inside), Table.stateOf,
      sized.index_info inside]
  simp only [clearSegment, current, tableUpdatePhysicalSegment_setState sized inside, Clears]
  by_cases sameState : table.physicalSector info.sector info.segment = state
  · by_cases isTemp : state = .temp
    · by_cases isExpired : expired (tableGetIndex info table.segmentCountInSector) = true
      · simp [sameState, isTemp, isExpired]
      · simp [sameState, isTemp, isExpired]
    · simp [sameState, isTemp]
  · simp [sameState]

theorem foldlM_clearSegment (infos : List SegmentInfo) (sized : Sized table.segmentCountInSector)
    (inside : ∀ info ∈ infos, info ∈ segmentInfos table.segmentCountInSector) :
    infos.foldlM (clearSegment state expired) table =
      some (clearedTable table state expired infos) := by
  induction infos generalizing table with
  | nil => simp [clearedTable]
  | cons info rest induction =>
    rw [List.foldlM_cons, clearSegment_eq sized (inside info (by simp)), Option.bind_eq_bind,
      Option.bind_some]
    by_cases clears : Clears table state expired info
    · rw [if_pos clears]
      refine (@induction (table.setState info .empty) sized
        fun other member => inside other (by simp [member])).trans (congrArg some ?_)
      unfold clearedTable
      congr 1
      funext sector segment
      simp only [Clears, Table.setState_physicalSector, Table.setState_segmentCountInSector,
        List.mem_cons]
      by_cases here : info = ⟨sector, segment⟩
      · subst here
        by_cases isTemp : state = .temp
        · simp [clears.1, clears.2 isTemp]
        · simp [clears.1, isTemp]
      · simp [here, Ne.symm here]
    · rw [if_neg clears]
      refine (induction sized fun other member => inside other (by simp [member])).trans
        (congrArg some ?_)
      unfold clearedTable
      congr 1
      funext sector segment
      by_cases here : info = ⟨sector, segment⟩
      · subst here
        simp [clears]
      · simp [Ne.symm here]

theorem tableClearTmpSegment_eq (sized : Sized table.segmentCountInSector)
    (notAllocated : state ≠ .allocated) :
    tableClearTmpSegment table state expired =
      some (.success, clearedTable table state expired
        (segmentInfos table.segmentCountInSector)) := by
  rw [tableClearTmpSegment, if_neg notAllocated,
    foldlM_clearSegment _ sized fun _ member => member]

theorem clearedTable_stateOf (sized : Sized table.segmentCountInSector) {p : Nat}
    (small : p < maxSectorCount * table.segmentCountInSector) :
    (clearedTable table state expired (segmentInfos table.segmentCountInSector)).stateOf p =
      if table.stateOf p = state ∧ (state = .temp → expired p = true) then .empty
      else table.stateOf p := by
  have isInside := sized.info_mem small
  have isIndex := sized.info_index small
  simp only [Table.stateOf, clearedTable, Clears, isInside, isIndex, true_and]
  rfl

theorem findEmpty_spec {infos : List SegmentInfo}
    (inBounds : ∀ info ∈ infos, info.InBounds) :
    findEmpty table infos = some none ∧
        (∀ info ∈ infos, table.physicalSector info.sector info.segment ≠ .empty) ∨
      ∃ info ∈ infos, findEmpty table infos = some (some info) ∧
        table.physicalSector info.sector info.segment = .empty := by
  induction infos with
  | nil => exact .inl ⟨rfl, by simp⟩
  | cons info rest induction =>
    have current : table.readState info =
        some (table.physicalSector info.sector info.segment) := if_pos (inBounds info (by simp))
    simp only [findEmpty, current]
    by_cases isEmpty : table.physicalSector info.sector info.segment = .empty
    · exact .inr ⟨info, by simp, if_pos isEmpty, isEmpty⟩
    · rw [if_neg isEmpty]
      rcases induction fun other member => inBounds other (by simp [member]) with
        ⟨notFound, noneEmpty⟩ | ⟨found, member, isFound, foundEmpty⟩
      · exact .inl ⟨notFound, by simpa using ⟨isEmpty, noneEmpty⟩⟩
      · exact .inr ⟨found, by simp [member], isFound, foundEmpty⟩

/-- The state of a segment when the expired `TEMP` ones are given back. -/
def stateCleared (table : Table) (expired : Nat → Bool) (p : Nat) : SegmentState :=
  if table.stateOf p = .temp ∧ expired p = true then .empty else table.stateOf p

/-- What a call of `table_allocate` that returns `p` has done. -/
structure Allocates (table : Table) (state : SegmentState) (expired : Nat → Bool) (p : Nat)
    (next : Table) : Prop where
  small : p < maxSectorCount * table.segmentCountInSector
  wasFree : stateCleared table expired p = .empty
  recorded : next.stateOf p = state
  others : ∀ q < maxSectorCount * table.segmentCountInSector, q ≠ p →
    next.stateOf q = stateCleared table expired q
  keeps : Keeps table next

/-- What a call of `table_allocate` that fails has done. -/
structure Exhausted (table : Table) (expired : Nat → Bool) (next : Table) : Prop where
  states : ∀ q < maxSectorCount * table.segmentCountInSector,
    next.stateOf q = stateCleared table expired q
  noneFree : ∀ q < maxSectorCount * table.segmentCountInSector, next.stateOf q ≠ .empty
  keeps : Keeps table next

theorem tableAllocate_cases (sized : Sized table.segmentCountInSector) :
    (∃ p next, tableAllocate table state expired = some (some p, next) ∧
        Allocates table state expired p next) ∨
      ∃ next, tableAllocate table state expired = some (none, next) ∧
        Exhausted table expired next := by
  have cleared := @tableClearTmpSegment_eq table .temp expired sized (by decide)
  have states : ∀ q < maxSectorCount * table.segmentCountInSector,
      (clearedTable table .temp expired
        (segmentInfos table.segmentCountInSector)).stateOf q = stateCleared table expired q := by
    intro q small
    refine (clearedTable_stateOf sized small).trans ?_
    simp only [stateCleared, forall_const]
  generalize isCleared : clearedTable table .temp expired
    (segmentInfos table.segmentCountInSector) = middle at cleared states
  have count : middle.segmentCountInSector = table.segmentCountInSector := by
    rw [← isCleared, clearedTable]
  have keeps : Keeps table middle := isCleared ▸ ⟨rfl, rfl, rfl⟩
  have inBounds : ∀ info ∈ segmentInfos middle.segmentCountInSector, info.InBounds := by
    rw [count]
    exact fun info member => sized.inBounds member
  simp only [tableAllocate, cleared]
  rcases findEmpty_spec inBounds with ⟨notFound, noneEmpty⟩ | ⟨info, member, found, isEmpty⟩
  · refine .inr ⟨middle, by rw [notFound], states, ?_, keeps⟩
    intro q small
    rw [← count] at small sized
    exact noneEmpty _ (sized.info_mem small)
  · left
    have small := Sized.index_lt member
    rw [← count] at sized
    have place : middle.stateOf (tableGetIndex info middle.segmentCountInSector) = .empty := by
      rw [Table.stateOf, sized.index_info member]
      exact isEmpty
    refine ⟨_, _, by rw [found], ?_⟩
    rw [← count] at states
    have raised := fun q => @tableUpdatePhysicalSegment_stateOf (middle.raise info.sector
      (tableGetIndex info middle.segmentCountInSector)) (tableGetIndex info
        middle.segmentCountInSector) q state
    refine
      { small := count ▸ small
        wasFree := (states _ small).symm.trans place
        recorded := (raised _ sized small small).trans (if_pos rfl)
        others := ?_
        keeps := ?_ }
    · rw [← count]
      intro q qSmall other
      exact ((raised q sized small qSmall).trans (if_neg other)).trans (states q qSmall)
    · have raise : Keeps middle (middle.raise info.sector
          (tableGetIndex info middle.segmentCountInSector)) := ⟨rfl, rfl, rfl⟩
      exact (keeps.trans raise).trans (tableUpdatePhysicalSegment_keeps _ _ _)

end Clearing

end Wisebot.Ifs
