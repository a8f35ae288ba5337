import Wisebot.Vdoc.Grouping

namespace Wisebot.Grouping

open Vdoc Lib.Places

/-! What a grouping counts and keeps, hit by hit. -/

theorem removes_eq_some_iff (limit : Limit) (rank : Nat) (removed : Bool) :
    removes limit rank = some removed ↔
      ¬ Overflows limit rank ∧ removed = !decide (WithinLimit limit rank) := by
  by_cases limited : Limited limit
  · obtain ⟨start, cnt⟩ := limited
    rw [removes, if_neg (by simp [start, cnt])]
    by_cases early : (rank : Int) < limit.start
    · rw [if_pos early]
      have inside : ¬ Overflows limit rank := fun overflow => by
        have := overflow.2.1
        omega
      have outside : ¬ WithinLimit limit rank := fun within => by
        have := (within ⟨start, cnt⟩).1
        omega
      simp [inside, outside, eq_comm]
    · rw [if_neg early]
      by_cases small : InInt (limit.start + limit.cnt) ∧ InInt (limit.start + limit.cnt - 1)
      · have inside : ¬ Overflows limit rank := fun overflow => overflow.2.2 small
        have within : WithinLimit limit rank ↔ ¬ (rank : Int) > limit.start + limit.cnt - 1 := by
          constructor
          · intro within
            have := (within ⟨start, cnt⟩).2
            omega
          · intro before _
            omega
        rw [if_pos small, Option.some.injEq]
        simp only [inside, not_false_eq_true, true_and, within, decide_not, Bool.not_not, eq_comm]
      · have overflow : Overflows limit rank := ⟨⟨start, cnt⟩, by omega, small⟩
        simp [small, overflow]
  · have free : limit.start = -1 ∨ limit.cnt = -1 := by
      by_contra bounded
      exact limited ⟨fun start => bounded (.inl start), fun cnt => bounded (.inr cnt)⟩
    have inside : ¬ Overflows limit rank := fun overflow => limited overflow.1
    have within : WithinLimit limit rank := fun isLimited => absurd isLimited limited
    rw [removes, if_pos free]
    simp [inside, within, eq_comm]

/-- One more for each value, in the rows from `j` on. -/
def tally (j : Nat) (values : List Nat) (table : GroupTable) : GroupTable := fun row column =>
  if j ≤ row ∧ values[row - j]? = some column then table row column + 1 else table row column

theorem tally_nil (j : Nat) (table : GroupTable) : tally j [] table = table := by
  funext row column
  simp [tally]

theorem increase_eq_some {table : GroupTable} {j value : Nat} (row : j < maxGroupRule)
    (column : value < maxCardinality) :
    table.increase j value = some (tally j [value] table) := by
  rw [GroupTable.increase, if_pos ⟨row, column⟩, Option.some.injEq]
  funext other place
  rw [tally]
  congr 1
  by_cases same : other = j
  · subst same
    simp [eq_comm]
  · rw [eq_iff_iff]
    constructor
    · exact fun isSame => absurd isSame.1 same
    · rintro ⟨below, isValue⟩
      rw [List.getElem?_eq_none (by rw [List.length_singleton]; omega)] at isValue
      cases isValue

theorem tally_cons (j value : Nat) (values : List Nat) (table : GroupTable) :
    tally (j + 1) values (tally j [value] table) = tally j (value :: values) table := by
  funext row column
  simp only [tally]
  by_cases below : row < j
  · rw [if_neg (by omega), if_neg (by omega), if_neg (by omega)]
  · by_cases same : row = j
    · subst same
      simp
    · obtain ⟨rest, rfl⟩ := Nat.exists_eq_add_of_lt (show j < row by omega)
      have place : j + rest + 1 - j = rest + 1 := by omega
      have place' : j + rest + 1 - (j + 1) = rest := by omega
      simp only [place, place', List.getElem?_cons_succ, List.getElem?_nil, reduceCtorEq,
        and_false, if_false]
      congr 1
      rw [eq_iff_iff]
      exact ⟨fun isValue => ⟨by omega, isValue.2⟩, fun isValue => ⟨by omega, isValue.2⟩⟩

theorem tally_row {j row : Nat} (above : j < row) (value column : Nat) (table : GroupTable) :
    tally j [value] table row column = table row column := by
  rw [tally, if_neg]
  rintro ⟨-, isValue⟩
  rw [List.getElem?_eq_none (by rw [List.length_singleton]; omega)] at isValue
  cases isValue

section Counting

variable (docattr : Docattr)

def countDocument (rules : List GroupbyRule) (table : GroupTable) (docid : UInt32) : GroupTable :=
  tally 0 (rules.map fun rule => groupValue docattr rule docid) table

theorem foldl_countDocument (rules : List GroupbyRule) (docids : List UInt32) (table : GroupTable)
    {j : Nat} {rule : GroupbyRule} (isRule : rules[j]? = some rule) (value : Nat) :
    docids.foldl (countDocument docattr rules) table j value =
      table j value + docids.countP fun docid => groupValue docattr rule docid = value := by
  induction docids generalizing table with
  | nil => rfl
  | cons docid rest ih =>
    rw [List.foldl_cons, ih, countDocument, tally, List.countP_cons]
    simp only [Nat.zero_le, Nat.sub_zero, List.getElem?_map, isRule, Option.map_some,
      Option.some.injEq, true_and, decide_eq_true_eq]
    split <;> omega

theorem getInteger_of_inRange {rules : List GroupbyRule} {docid : UInt32}
    (inRange : InRange docattr rules docid) {rule : GroupbyRule} (isRule : rule ∈ rules) :
    getInteger docattr rule.sort.rule.name docid = some (groupValue docattr rule docid : Int) ∧
      groupValue docattr rule docid < maxCardinality := by
  obtain ⟨value, small, isValue⟩ := inRange rule isRule
  have same : groupValue docattr rule docid = value := by
    rw [groupValue, isValue]
    rfl
  rw [same]
  exact ⟨isValue, small⟩

theorem removes_eq_none {limit : Limit} {rank : Nat} (refused : removes limit rank = none) :
    Overflows limit rank := by
  by_contra inside
  rw [(removes_eq_some_iff limit rank _).mpr ⟨inside, rfl⟩] at refused
  cases refused

variable {docattr}

theorem virtualDocumentGroupCount_eq_some_iff {vd : VirtualEntry} {rules : List GroupbyRule}
    {j : Nat} (inRange : InRange docattr rules vd.docattr)
    (fits : j + rules.length ≤ maxGroupRule) (table : GroupTable) (isRemove removed : Bool)
    (after : GroupTable) :
    virtualDocumentGroupCount docattr vd j rules table isRemove = some (removed, after) ↔
      (∀ entry ∈ rules.zipIdx j, ¬ Overflows entry.1.limit
        (table entry.2 (groupValue docattr entry.1 vd.docattr))) ∧
      removed = (isRemove || !(rules.zipIdx j).all fun entry => WithinLimit entry.1.limit
        (table entry.2 (groupValue docattr entry.1 vd.docattr))) ∧
      after = tally j (rules.map fun rule => groupValue docattr rule vd.docattr) table := by
  induction rules generalizing j table isRemove with
  | nil => simp [virtualDocumentGroupCount, tally_nil, eq_comm]
  | cons rule rest ih =>
    obtain ⟨isNumber, small⟩ := getInteger_of_inRange docattr inRange List.mem_cons_self
    rw [List.length_cons] at fits
    have cardinality : maxCardinality = 1024 := rfl
    have asUnsigned : (((groupValue docattr rule vd.docattr : Nat) : Int) % 4294967296).toNat =
        groupValue docattr rule vd.docattr := by
      omega
    have same : ∀ entry ∈ rest.zipIdx (j + 1),
        tally j [groupValue docattr rule vd.docattr] table entry.2
            (groupValue docattr entry.1 vd.docattr) =
          table entry.2 (groupValue docattr entry.1 vd.docattr) :=
      fun entry member => tally_row (List.le_snd_of_mem_zipIdx member) _ _ _
    have clearSame : (∀ entry ∈ rest.zipIdx (j + 1), ¬ Overflows entry.1.limit
          (tally j [groupValue docattr rule vd.docattr] table entry.2
            (groupValue docattr entry.1 vd.docattr))) ↔
        ∀ entry ∈ rest.zipIdx (j + 1), ¬ Overflows entry.1.limit
          (table entry.2 (groupValue docattr entry.1 vd.docattr)) :=
      forall₂_congr fun entry member => by rw [same entry member]
    have withinSame : ((rest.zipIdx (j + 1)).all fun entry => WithinLimit entry.1.limit
          (tally j [groupValue docattr rule vd.docattr] table entry.2
            (groupValue docattr entry.1 vd.docattr))) =
        (rest.zipIdx (j + 1)).all fun entry => WithinLimit entry.1.limit
          (table entry.2 (groupValue docattr entry.1 vd.docattr)) := by
      rw [Bool.eq_iff_iff, List.all_eq_true, List.all_eq_true]
      exact forall₂_congr fun entry member => by rw [same entry member]
    rw [virtualDocumentGroupCount, isNumber]
    simp only [asUnsigned, if_neg (Nat.not_lt.mpr small.le),
      increase_eq_some (show j < maxGroupRule by omega) small, List.zipIdx_cons, List.map_cons,
      List.forall_mem_cons, List.all_cons]
    cases judged : removes rule.limit (table j (groupValue docattr rule vd.docattr)) with
    | none => simp [removes_eq_none judged]
    | some here =>
      obtain ⟨inside, rfl⟩ := (removes_eq_some_iff _ _ _).mp judged
      simp only
      rw [ih (fun other member => inRange other (List.mem_cons_of_mem rule member))
        (by omega), clearSame, withinSame, tally_cons]
      simp [inside, Bool.or_assoc]

section Ranks

variable (docattr)

/-- What the code takes for the rank of a virtual document under a rule. -/
def seenRank (table : GroupTable) (place : List VirtualEntry × VirtualEntry)
    (entry : GroupbyRule × Nat) : Nat :=
  table entry.2 (groupValue docattr entry.1 place.2.docattr) + virtualRank docattr entry.1 place

def Comparable (rules : List GroupbyRule) (table : GroupTable)
    (place : List VirtualEntry × VirtualEntry) : Prop :=
  ∀ entry ∈ rules.zipIdx, ¬ Overflows entry.1.limit (seenRank docattr table place entry)

def passes (rules : List GroupbyRule) (table : GroupTable)
    (place : List VirtualEntry × VirtualEntry) : Bool :=
  rules.zipIdx.all fun entry => WithinLimit entry.1.limit (seenRank docattr table place entry)

end Ranks

/-- The step of the loop, on a table that has the counts of the list before it. -/
theorem virtualDocumentGroupCount_step {vd : VirtualEntry} {rules : List GroupbyRule}
    (inRange : InRange docattr rules vd.docattr) (fits : rules.length ≤ maxGroupRule)
    (table : GroupTable) (before : List VirtualEntry) (removed : Bool) (after : GroupTable) :
    virtualDocumentGroupCount docattr vd 0 rules
        ((before.map VirtualEntry.docattr).foldl (countDocument docattr rules) table) false =
          some (removed, after) ↔
      Comparable docattr rules table (before, vd) ∧
        removed = !passes docattr rules table (before, vd) ∧
        after = ((before ++ [vd]).map VirtualEntry.docattr).foldl (countDocument docattr rules)
          table := by
  have seen : ∀ entry ∈ rules.zipIdx,
      (before.map VirtualEntry.docattr).foldl (countDocument docattr rules) table entry.2
          (groupValue docattr entry.1 vd.docattr) =
        seenRank docattr table (before, vd) entry := by
    intro entry isRule
    exact foldl_countDocument docattr rules _ table (List.mem_zipIdx_iff_getElem?.mp isRule) _
  have clearSame : (∀ entry ∈ rules.zipIdx, ¬ Overflows entry.1.limit
        ((before.map VirtualEntry.docattr).foldl (countDocument docattr rules) table entry.2
          (groupValue docattr entry.1 vd.docattr))) ↔
      Comparable docattr rules table (before, vd) :=
    forall₂_congr fun entry member => by rw [seen entry member]
  have withinSame : (rules.zipIdx.all fun entry => WithinLimit entry.1.limit
        ((before.map VirtualEntry.docattr).foldl (countDocument docattr rules) table entry.2
          (groupValue docattr entry.1 vd.docattr))) =
      passes docattr rules table (before, vd) := by
    rw [passes, Bool.eq_iff_iff, List.all_eq_true, List.all_eq_true]
    exact forall₂_congr fun entry member => by rw [seen entry member]
  rw [virtualDocumentGroupCount_eq_some_iff inRange (by omega), clearSame, withinSame,
    Bool.false_or, List.map_append, List.foldl_append]
  rfl

theorem virtualGroupingFrom_eq_some_iff {rules : List GroupbyRule} {before list : List VirtualEntry}
    (inRange : ∀ vd ∈ list, InRange docattr rules vd.docattr) (fits : rules.length ≤ maxGroupRule)
    (table after : GroupTable) (kept : List VirtualEntry) :
    virtualGroupingFrom docattr rules
        ((before.map VirtualEntry.docattr).foldl (countDocument docattr rules) table) list =
          some (kept, after) ↔
      (∀ place ∈ placesFrom (fun _ _ => true) before list,
        Comparable docattr rules table place) ∧
      kept = ((placesFrom (fun _ _ => true) before list).filter
        (passes docattr rules table)).map Prod.snd ∧
      after = ((before ++ list).map VirtualEntry.docattr).foldl (countDocument docattr rules)
        table := by
  induction list generalizing before kept with
  | nil => simp [virtualGroupingFrom, placesFrom, eq_comm]
  | cons vd rest ih =>
    have count := virtualDocumentGroupCount_step (inRange vd List.mem_cons_self) fits table before
    have later := @ih (before ++ [vd])
      (fun other member => inRange other (List.mem_cons_of_mem vd member))
    rw [List.append_assoc, List.singleton_append] at later
    rw [virtualGroupingFrom, placesFrom_all, List.forall_mem_cons]
    cases counted : virtualDocumentGroupCount docattr vd 0 rules
        ((before.map VirtualEntry.docattr).foldl (countDocument docattr rules) table) false with
    | none =>
      have overflow : ¬ Comparable docattr rules table (before, vd) := by
        intro clear
        rw [(count _ _).mpr ⟨clear, rfl, rfl⟩] at counted
        cases counted
      simp only [reduceCtorEq, false_iff, not_and]
      exact fun clear => absurd clear.1 overflow
    | some result =>
      obtain ⟨isRemove, next⟩ := result
      obtain ⟨clear, rfl, rfl⟩ := (count _ _).mp counted
      rw [List.filter_cons]
      cases grouped : virtualGroupingFrom docattr rules
          (((before ++ [vd]).map VirtualEntry.docattr).foldl (countDocument docattr rules)
            table) rest with
      | none =>
        simp only [grouped, reduceCtorEq, false_iff] at later ⊢
        exact fun found => later _ ⟨found.1.2, rfl, found.2.2⟩
      | some result =>
        obtain ⟨keptRest, last⟩ := result
        simp only [grouped, Option.some.injEq, Prod.mk.injEq] at later ⊢
        constructor
        · rintro ⟨sameKept, sameAfter⟩
          obtain ⟨clearRest, isKept, isAfter⟩ := (later keptRest).mp ⟨rfl, sameAfter⟩
          refine ⟨⟨clear, clearRest⟩, ?_, isAfter⟩
          rw [← sameKept, isKept]
          cases passes docattr rules table (before, vd) <;> rfl
        · rintro ⟨⟨_, clearRest⟩, isKept, isAfter⟩
          obtain ⟨sameKept, sameAfter⟩ := (later _).mpr ⟨clearRest, rfl, isAfter⟩
          refine ⟨?_, sameAfter⟩
          rw [isKept, sameKept]
          cases passes docattr rules table (before, vd) <;> rfl

section Cleared

variable {rules : List GroupbyRule} {list : List VirtualEntry} {table : GroupTable}

theorem seenRank_of_cleared (cleared : Cleared rules table)
    (inRange : ∀ vd ∈ list, InRange docattr rules vd.docattr)
    {place : List VirtualEntry × VirtualEntry} (isPlace : place ∈ ranked list)
    {entry : GroupbyRule × Nat} (isRule : entry ∈ rules.zipIdx) :
    seenRank docattr table place entry = virtualRank docattr entry.1 place := by
  have isVd := (mem_of_mem_placesFrom isPlace).1
  have small := (getInteger_of_inRange docattr (inRange _ isVd)
    (List.fst_mem_of_mem_zipIdx isRule)).2
  rw [seenRank, cleared entry.2 (List.snd_lt_of_mem_zipIdx isRule) _ small, Nat.zero_add]

theorem exists_zipIdx {rule : GroupbyRule} (isRule : rule ∈ rules) :
    ∃ j, (rule, j) ∈ rules.zipIdx := by
  obtain ⟨j, isRule⟩ := List.mem_iff_getElem?.mp isRule
  exact ⟨j, List.mem_zipIdx_iff_getElem?.mpr isRule⟩

theorem comparable_of_cleared (cleared : Cleared rules table)
    (inRange : ∀ vd ∈ list, InRange docattr rules vd.docattr)
    {place : List VirtualEntry × VirtualEntry} (isPlace : place ∈ ranked list) :
    Comparable docattr rules table place ↔
      ∀ rule ∈ rules, ¬ Overflows rule.limit (virtualRank docattr rule place) := by
  constructor
  · intro comparable rule isRule
    obtain ⟨j, isEntry⟩ := exists_zipIdx isRule
    rw [← seenRank_of_cleared cleared inRange isPlace isEntry]
    exact comparable _ isEntry
  · intro clear entry isEntry
    rw [seenRank_of_cleared cleared inRange isPlace isEntry]
    exact clear _ (List.fst_mem_of_mem_zipIdx isEntry)

theorem passes_of_cleared (cleared : Cleared rules table)
    (inRange : ∀ vd ∈ list, InRange docattr rules vd.docattr)
    {place : List VirtualEntry × VirtualEntry} (isPlace : place ∈ ranked list) :
    passes docattr rules table place =
      rules.all fun rule => WithinLimit rule.limit (virtualRank docattr rule place) := by
  rw [passes, Bool.eq_iff_iff, List.all_eq_true, List.all_eq_true]
  constructor
  · intro within rule isRule
    obtain ⟨j, isEntry⟩ := exists_zipIdx isRule
    rw [← seenRank_of_cleared cleared inRange isPlace isEntry]
    exact within _ isEntry
  · intro within entry isEntry
    rw [seenRank_of_cleared cleared inRange isPlace isEntry]
    exact within _ (List.fst_mem_of_mem_zipIdx isEntry)

theorem counted_iff_cleared (docids : List UInt32) :
    Counted docattr rules docids (docids.foldl (countDocument docattr rules) table) ↔
      Cleared rules table := by
  constructor
  · intro counted j inside value small
    have isRule := List.getElem?_eq_getElem inside
    have total := counted j _ isRule value small
    rw [foldl_countDocument docattr rules docids table isRule] at total
    omega
  · intro cleared j rule isRule value small
    have inside := (List.getElem?_eq_some_iff.mp isRule).1
    rw [foldl_countDocument docattr rules docids table isRule, cleared j inside value small,
      Nat.zero_add]

theorem virtualDocumentGrouping_exact (inRange : ∀ vd ∈ list, InRange docattr rules vd.docattr)
    (fits : rules.length ≤ maxGroupRule) :
    (∃ after, virtualDocumentGrouping docattr rules table list =
          some (keptWithin docattr rules list, after) ∧
        Counted docattr rules (list.map VirtualEntry.docattr) after) ↔
      Cleared rules table ∧ ∀ place ∈ ranked list, ∀ rule ∈ rules,
        ¬ Overflows rule.limit (virtualRank docattr rule place) := by
  by_cases empty : rules = []
  · subst empty
    rw [virtualDocumentGrouping, if_pos rfl]
    have whole : keptWithin docattr [] list = list := by
      rw [keptWithin, List.filter_eq_self.mpr (by simp), ranked, places, map_snd_placesFrom]
    simp [whole, Counted, Cleared]
  · have loop := @virtualGroupingFrom_eq_some_iff docattr rules [] list inRange fits table
    rw [virtualDocumentGrouping, if_neg empty]
    simp only [List.map_nil, List.foldl_nil, List.nil_append] at loop
    simp only [loop]
    constructor
    · rintro ⟨after, ⟨comparable, _, rfl⟩, counted⟩
      have cleared := (counted_iff_cleared _).mp counted
      exact ⟨cleared, fun place isPlace =>
        (comparable_of_cleared cleared inRange isPlace).mp (comparable place isPlace)⟩
    · rintro ⟨cleared, clear⟩
      refine ⟨_, ⟨fun place isPlace => ?_, ?_, rfl⟩, (counted_iff_cleared _).mpr cleared⟩
      · exact (comparable_of_cleared cleared inRange isPlace).mpr (clear place isPlace)
      · rw [keptWithin, List.filter_congr fun place isPlace =>
          (passes_of_cleared cleared inRange isPlace).symm]
        rfl

end Cleared

theorem documentGroupValues_of_inRange {rules : List GroupbyRule} {docHit : DocHit}
    (inRange : InRange docattr rules docHit.id) :
    documentGroupValues docattr rules docHit =
      some (rules.map fun rule => (groupValue docattr rule docHit.id : Int)) := by
  induction rules with
  | nil => rfl
  | cons rule rest ih =>
    have isNumber := (getInteger_of_inRange docattr inRange List.mem_cons_self).1
    have later := ih fun other member => inRange other (List.mem_cons_of_mem rule member)
    rw [documentGroupValues] at later ⊢
    rw [List.mapM_cons, isNumber, later]
    rfl

theorem countGroupValues_eq_some_iff {rules : List GroupbyRule} {j : Nat}
    {rank check value : GroupbyRule → Nat} (checkSmall : ∀ rule ∈ rules, check rule < maxCardinality)
    (valueSmall : ∀ rule ∈ rules, value rule < maxCardinality)
    (fits : j + rules.length ≤ maxGroupRule) (table : GroupTable) (removed : Bool)
    (after : GroupTable) :
    countGroupValues j rules (rules.map rank) (rules.map fun rule => (check rule : Int))
        (rules.map fun rule => (value rule : Int)) table = some (removed, after) ↔
      (∀ rule ∈ rules, ¬ Overflows rule.limit (rank rule)) ∧
      removed = (!rules.all fun rule => WithinLimit rule.limit (rank rule)) ∧
      after = tally j (rules.map value) table := by
  induction rules generalizing j table removed after with
  | nil => simp [countGroupValues, tally_nil, eq_comm]
  | cons rule rest ih =>
    have checked := checkSmall rule List.mem_cons_self
    have small := valueSmall rule List.mem_cons_self
    rw [List.length_cons] at fits
    have later := ih (fun other member => checkSmall other (List.mem_cons_of_mem rule member))
      (fun other member => valueSmall other (List.mem_cons_of_mem rule member))
      (show j + 1 + rest.length ≤ maxGroupRule by omega) (tally j [value rule] table)
    simp only [tally_cons] at later
    simp only [List.map_cons, countGroupValues]
    rw [if_pos (Int.ofNat_lt.mpr checked), if_neg (by omega), Int.toNat_natCast,
      increase_eq_some (by omega) small]
    cases judged : removes rule.limit (rank rule) with
    | none => simp [removes_eq_none judged]
    | some here =>
      obtain ⟨inside, rfl⟩ := (removes_eq_some_iff _ _ _).mp judged
      simp only [List.forall_mem_cons, List.all_cons]
      cases counted : countGroupValues (j + 1) rest (rest.map rank)
          (rest.map fun rule => (check rule : Int)) (rest.map fun rule => (value rule : Int))
          (tally j [value rule] table) with
      | none =>
        simp only [reduceCtorEq, false_iff]
        rintro ⟨⟨_, clear⟩, _, rfl⟩
        have found := (later _ _).mpr ⟨clear, rfl, rfl⟩
        rw [counted] at found
        cases found
      | some result =>
        obtain ⟨isRemove, last⟩ := result
        obtain ⟨clear, rfl, rfl⟩ := (later _ _).mp counted
        simp only [inside, not_false_eq_true, true_and, Bool.not_and, Option.some.injEq,
          Prod.mk.injEq, eq_comm]
        exact ⟨fun same => ⟨clear, same⟩, And.right⟩

/-! The run of a hit and what is known of it. -/

section Runs

variable (docattr) (virtualRules : List KeyRule)

def keyOf (docHit : DocHit) : List Int := (virtualIdList docattr virtualRules docHit).getD []

def sameVirtual (first other : DocHit) : Bool :=
  virtualIdList docattr virtualRules first = virtualIdList docattr virtualRules other

def runAt (rules : List GroupbyRule) (place : List DocHit × DocHit) : GroupRun where
  currGroupValues := rules.map fun rule => (groupValue docattr rule (first place).id : Int)
  virtualIdList := keyOf docattr virtualRules (first place)
  groupCount := rules.map fun rule => hitRank docattr rule place

def runBehind (rules : List GroupbyRule) (before : List DocHit) : Option GroupRun :=
  before.head?.map fun leader => runAt docattr virtualRules rules (before, leader)

variable {docattr virtualRules} {rules : List GroupbyRule}

theorem runBehind_cons (leader item : DocHit) (rest : List DocHit) :
    runBehind docattr virtualRules rules (leader :: rest) =
      some (runAt docattr virtualRules rules (leader :: rest, item)) := rfl

theorem next_runBehind {before : List DocHit} {docHit : DocHit}
    (known : (virtualIdList docattr virtualRules docHit).isSome)
    (leaderKnown : ∀ leader ∈ before.head?, (virtualIdList docattr virtualRules leader).isSome) :
    GroupRun.next (runBehind docattr virtualRules rules before)
        (rules.map fun rule => (groupValue docattr rule docHit.id : Int))
        (keyOf docattr virtualRules docHit) =
      runAt docattr virtualRules rules
        (if before.head?.any (sameVirtual docattr virtualRules · docHit) then before else [],
          docHit) := by
  have fresh : (⟨rules.map fun rule => (groupValue docattr rule docHit.id : Int),
      keyOf docattr virtualRules docHit,
      (rules.map fun rule => (groupValue docattr rule docHit.id : Int)).map fun _ => 0⟩ : GroupRun) =
        runAt docattr virtualRules rules ([], docHit) := by
    rw [List.map_map]
    rfl
  cases before with
  | nil => exact fresh
  | cons leader rest =>
    obtain ⟨key, isKey⟩ := Option.isSome_iff_exists.mp known
    obtain ⟨leaderKey, isLeaderKey⟩ := Option.isSome_iff_exists.mp (leaderKnown leader rfl)
    have same : sameVirtual docattr virtualRules leader docHit = true ↔
        keyOf docattr virtualRules leader = keyOf docattr virtualRules docHit := by
      simp [sameVirtual, keyOf, isKey, isLeaderKey]
    rw [runBehind_cons leader docHit, GroupRun.next]
    simp only [List.head?_cons, Option.any_some, same]
    split
    · rename_i equal
      have isSame : keyOf docattr virtualRules leader = keyOf docattr virtualRules docHit := equal
      rw [if_pos isSame]
    · rename_i differ
      have isOther : keyOf docattr virtualRules leader ≠ keyOf docattr virtualRules docHit :=
        differ
      rw [if_neg isOther]
      exact fresh

theorem counted_runAt (place : List DocHit × DocHit) :
    some ((runAt docattr virtualRules rules place).counted
        (rules.map fun rule => (groupValue docattr rule place.2.id : Int))) =
      runBehind docattr virtualRules rules (place.1 ++ [place.2]) := by
  obtain ⟨before, item⟩ := place
  have leads : (before ++ [item]).head? = some (first (before, item)) := by
    cases before <;> rfl
  have firstSame : first (before ++ [item], first (before, item)) = first (before, item) := by
    cases before <;> rfl
  rw [runBehind, leads, Option.map_some, Option.some.injEq, GroupRun.counted, runAt, runAt,
    firstSame]
  congr 1
  simp only [List.zipWith_map, List.zipWith_self]
  apply List.map_congr_left
  intro rule _
  rw [hitRank, hitRank, firstSame, groupRank, groupRank, List.map_append, List.countP_append]
  by_cases same : groupValue docattr rule item.id = groupValue docattr rule (first (before, item)).id
  · simp [same]
  · have apart : ((groupValue docattr rule (first (before, item)).id : Nat) : Int) ≠
        (groupValue docattr rule item.id : Nat) := fun equal => same (Int.ofNat.inj equal).symm
    simp [same, apart]

theorem documentGroupingFrom_iff {before list : List DocHit}
    (inRange : ∀ docHit ∈ list, InRange docattr rules docHit.id)
    (leaderInRange : ∀ leader ∈ before.head?, InRange docattr rules leader.id)
    (leaderKnown : ∀ leader ∈ before.head?, (virtualIdList docattr virtualRules leader).isSome)
    (fits : rules.length ≤ maxGroupRule) (table after : GroupTable) :
    (∃ kept, documentGroupingFrom docattr virtualRules rules
        (runBehind docattr virtualRules rules before) table list = some (kept, after)) ↔
      (∀ docHit ∈ list, (virtualIdList docattr virtualRules docHit).isSome) ∧
      (∀ place ∈ placesFrom (sameVirtual docattr virtualRules) before list, ∀ rule ∈ rules,
        ¬ Overflows rule.limit (hitRank docattr rule place)) ∧
      after = ((placesFrom (sameVirtual docattr virtualRules) before list).map fun place =>
        (first place).id).foldl (countDocument docattr rules) table := by
  induction list generalizing before table with
  | nil =>
    constructor
    · rintro ⟨kept, same⟩
      cases same
      exact ⟨by simp, by simp [placesFrom], rfl⟩
    · rintro ⟨_, _, rfl⟩
      exact ⟨[], rfl⟩
  | cons docHit rest ih =>
    have here := inRange docHit List.mem_cons_self
    rw [documentGroupingFrom, documentGroupValues_of_inRange here]
    cases isKey : virtualIdList docattr virtualRules docHit with
    | none =>
      simp only [reduceCtorEq, exists_false, false_iff]
      intro claimed
      have known := claimed.1 docHit List.mem_cons_self
      rw [isKey] at known
      cases known
    | some key =>
      have known : (virtualIdList docattr virtualRules docHit).isSome := by rw [isKey]; rfl
      have isKeyOf : key = keyOf docattr virtualRules docHit := by rw [keyOf, isKey]; rfl
      subst isKeyOf
      simp only [next_runBehind known leaderKnown]
      rw [placesFrom]
      generalize isPlace : (if before.head?.any
        (sameVirtual docattr virtualRules · docHit) then before else []) = run
      have leader : (run ++ [docHit]).head? = some (first (run, docHit)) := by
        cases run <;> rfl
      have isLeader : first (run, docHit) = docHit ∨
          first (run, docHit) ∈ before.head? := by
        rw [← isPlace]
        cases before with
        | nil => exact .inl rfl
        | cons head tail =>
          split
          · exact .inr rfl
          · exact .inl rfl
      have nextInRange : InRange docattr rules (first (run, docHit)).id := by
        rcases isLeader with same | old
        · rw [same]
          exact here
        · exact leaderInRange _ old
      have nextKnown : (virtualIdList docattr virtualRules (first (run, docHit))).isSome := by
        rcases isLeader with same | old
        · rw [same]
          exact known
        · exact leaderKnown _ old
      have small {docid : UInt32} (inside : InRange docattr rules docid) :
          ∀ rule ∈ rules, groupValue docattr rule docid < maxCardinality :=
        fun rule isRule => (getInteger_of_inRange docattr inside isRule).2
      have count (removed : Bool) (next : GroupTable) :
          countGroupValues 0 rules (runAt docattr virtualRules rules (run, docHit)).groupCount
              (rules.map fun rule => (groupValue docattr rule docHit.id : Int))
              (runAt docattr virtualRules rules (run, docHit)).currGroupValues table =
                some (removed, next) ↔
            (∀ rule ∈ rules, ¬ Overflows rule.limit (hitRank docattr rule (run, docHit))) ∧
            removed = (!rules.all fun rule =>
              WithinLimit rule.limit (hitRank docattr rule (run, docHit))) ∧
            next = countDocument docattr rules table (first (run, docHit)).id :=
        countGroupValues_eq_some_iff (small here) (small nextInRange) (by omega) table removed
          next
      have later := @ih (run ++ [docHit])
        (fun other member => inRange other (List.mem_cons_of_mem docHit member))
        (by rw [leader]; rintro _ ⟨⟩; exact nextInRange)
        (by rw [leader]; rintro _ ⟨⟩; exact nextKnown)
        (countDocument docattr rules table (first (run, docHit)).id)
      have isRun : some ((runAt docattr virtualRules rules (run, docHit)).counted
          (rules.map fun rule => (groupValue docattr rule docHit.id : Int))) =
          runBehind docattr virtualRules rules (run ++ [docHit]) := counted_runAt (run, docHit)
      simp only [List.forall_mem_cons, known, true_and, List.map_cons, List.foldl_cons]
      cases counted : countGroupValues 0 rules
          (runAt docattr virtualRules rules (run, docHit)).groupCount
          (rules.map fun rule => (groupValue docattr rule docHit.id : Int))
          (runAt docattr virtualRules rules (run, docHit)).currGroupValues table with
      | none =>
        simp only [reduceCtorEq, exists_false, false_iff]
        intro claimed
        rw [(count _ _).mpr ⟨claimed.2.1.1, rfl, rfl⟩] at counted
        cases counted
      | some result =>
        obtain ⟨isRemove, next⟩ := result
        obtain ⟨clear, -, rfl⟩ := (count _ _).mp counted
        simp only [isRun]
        constructor
        · rintro ⟨kept, found⟩
          cases grouped : documentGroupingFrom docattr virtualRules rules
              (runBehind docattr virtualRules rules (run ++ [docHit]))
              (countDocument docattr rules table (first (run, docHit)).id) rest with
          | none =>
            rw [grouped] at found
            cases found
          | some behind =>
            obtain ⟨keptRest, last⟩ := behind
            rw [grouped] at found
            cases found
            obtain ⟨knownRest, clearRest, isAfter⟩ := later.mp ⟨keptRest, grouped⟩
            exact ⟨knownRest, ⟨clear, clearRest⟩, isAfter⟩
        · rintro ⟨knownRest, ⟨_, clearRest⟩, isAfter⟩
          obtain ⟨keptRest, grouped⟩ := later.mpr ⟨knownRest, clearRest, isAfter⟩
          rw [grouped]
          exact ⟨_, rfl⟩

/-- Of the places with a value at one end, those with another one at the other end. -/
theorem balanced_iff (placed : List (List DocHit × DocHit)) (rule : GroupbyRule) (value : Nat) :
    (placed.countP (fun place => groupValue docattr rule place.2.id = value ∧
          groupValue docattr rule (first place).id ≠ value) =
        placed.countP fun place => groupValue docattr rule (first place).id = value ∧
          groupValue docattr rule place.2.id ≠ value) ↔
      placed.countP (fun place => groupValue docattr rule (first place).id = value) =
        placed.countP fun place => groupValue docattr rule place.2.id = value := by
  rw [countP_split placed (fun place => decide (groupValue docattr rule (first place).id = value))
      fun place => decide (groupValue docattr rule place.2.id = value),
    countP_split placed (fun place => decide (groupValue docattr rule place.2.id = value))
      fun place => decide (groupValue docattr rule (first place).id = value)]
  simp only [Bool.decide_and, decide_not, ne_eq]
  have both : placed.countP (fun place =>
        decide (groupValue docattr rule place.2.id = value) &&
          decide (groupValue docattr rule (first place).id = value)) =
      placed.countP fun place =>
        decide (groupValue docattr rule (first place).id = value) &&
          decide (groupValue docattr rule place.2.id = value) :=
    List.countP_congr fun place _ => by simp [and_comm]
  omega

theorem counted_hits_iff {list : List DocHit} {table : GroupTable}
    (inRange : ∀ docHit ∈ list, InRange docattr rules docHit.id) :
    Counted docattr rules (list.map DocHit.id)
        (((hitPlaces docattr virtualRules list).map fun place => (first place).id).foldl
          (countDocument docattr rules) table) ↔
      Cleared rules table ∧ Balanced docattr virtualRules rules list := by
  have sums {rule : GroupbyRule} (isRule : rule ∈ rules) :
      ∑ value ∈ Finset.range maxCardinality,
          (hitPlaces docattr virtualRules list).countP (fun place =>
            groupValue docattr rule (first place).id = value) =
        ∑ value ∈ Finset.range maxCardinality,
          list.countP fun docHit => groupValue docattr rule docHit.id = value := by
    have length : (hitPlaces docattr virtualRules list).length = list.length := by
      rw [hitPlaces, places, ← List.length_map Prod.snd, map_snd_placesFrom]
    have ofFirst := sum_countP (fun place => groupValue docattr rule (first place).id)
      fun place (isPlace : place ∈ hitPlaces docattr virtualRules list) =>
        (getInteger_of_inRange docattr (inRange _ (first_mem isPlace)) isRule).2
    have ofHit := sum_countP (fun docHit : DocHit => groupValue docattr rule docHit.id)
      fun docHit isHit => (getInteger_of_inRange docattr (inRange docHit isHit) isRule).2
    rw [ofFirst, ofHit, length]
  have total {j : Nat} {rule : GroupbyRule} (isRule : rules[j]? = some rule) (value : Nat) :
      ((hitPlaces docattr virtualRules list).map fun place => (first place).id).foldl
          (countDocument docattr rules) table j value =
        table j value + (hitPlaces docattr virtualRules list).countP fun place =>
          groupValue docattr rule (first place).id = value := by
    rw [foldl_countDocument docattr rules _ table isRule, List.countP_map]
    rfl
  have wanted (rule : GroupbyRule) (value : Nat) :
      (list.map DocHit.id).countP (fun docid => groupValue docattr rule docid = value) =
        list.countP fun docHit => groupValue docattr rule docHit.id = value := by
    rw [List.countP_map]
    rfl
  have placed (rule : GroupbyRule) (value : Nat) :
      (hitPlaces docattr virtualRules list).countP (fun place =>
          groupValue docattr rule place.2.id = value) =
        list.countP fun docHit => groupValue docattr rule docHit.id = value :=
    countP_places _ list fun docHit => groupValue docattr rule docHit.id = value
  constructor
  · intro counted
    have cleared : Cleared rules table := by
      intro j inside value small
      have isRule := List.getElem?_eq_getElem inside
      have equal : ∀ value ∈ Finset.range maxCardinality, table j value +
          (hitPlaces docattr virtualRules list).countP (fun place =>
            groupValue docattr rules[j] (first place).id = value) =
          list.countP fun docHit => groupValue docattr rules[j] docHit.id = value := by
        intro value isValue
        rw [← total isRule, ← wanted]
        exact counted j _ isRule value (Finset.mem_range.mp isValue)
      have sum := Finset.sum_congr rfl equal
      rw [Finset.sum_add_distrib, sums (List.getElem_mem inside)] at sum
      have zero : ∑ value ∈ Finset.range maxCardinality, table j value = 0 := by omega
      exact Finset.sum_eq_zero_iff.mp zero value (Finset.mem_range.mpr small)
    refine ⟨cleared, fun rule isRule value small => ?_⟩
    obtain ⟨j, isRule⟩ := List.mem_iff_getElem?.mp isRule
    have here := counted j rule isRule value small
    rw [total isRule, wanted, cleared j (List.getElem?_eq_some_iff.mp isRule).1 value small,
      Nat.zero_add] at here
    rw [balanced_iff, placed]
    exact here
  · rintro ⟨cleared, balanced⟩ j rule isRule value small
    have here := (balanced_iff _ rule value).mp
      (balanced rule (List.mem_of_getElem? isRule) value small)
    rw [total isRule, wanted, cleared j (List.getElem?_eq_some_iff.mp isRule).1 value small,
      Nat.zero_add, here, placed]

theorem documentGrouping_exact {list : List DocHit} {table : GroupTable}
    (inRange : ∀ docHit ∈ list, InRange docattr rules docHit.id)
    (fits : rules.length ≤ maxGroupRule) :
    (∃ kept after, documentGrouping docattr virtualRules rules table list = some (kept, after) ∧
        Counted docattr rules (list.map DocHit.id) after) ↔
      (rules ≠ [] → ∀ docHit ∈ list, (virtualIdList docattr virtualRules docHit).isSome) ∧
      Cleared rules table ∧
      (∀ place ∈ hitPlaces docattr virtualRules list, ∀ rule ∈ rules,
        ¬ Overflows rule.limit (hitRank docattr rule place)) ∧
      Balanced docattr virtualRules rules list := by
  by_cases empty : rules = []
  · subst empty
    simp [documentGrouping, Counted, Cleared, Balanced]
  · have loop (after : GroupTable) := @documentGroupingFrom_iff docattr virtualRules rules [] list
      inRange (by simp) (by simp) fits table after
    rw [documentGrouping, if_neg empty, exists_comm]
    have runs : (∃ after kept, documentGroupingFrom docattr virtualRules rules none table list =
        some (kept, after) ∧ Counted docattr rules (list.map DocHit.id) after) ↔
        ∃ after, (∃ kept, documentGroupingFrom docattr virtualRules rules none table list =
          some (kept, after)) ∧ Counted docattr rules (list.map DocHit.id) after := by
      simp only [exists_and_right]
    rw [runs]
    simp only [show runBehind docattr virtualRules rules [] = none from rfl] at loop
    simp only [loop, ne_eq, empty, not_false_eq_true, forall_const]
    constructor
    · rintro ⟨after, ⟨known, clear, rfl⟩, counted⟩
      obtain ⟨cleared, balanced⟩ := (counted_hits_iff inRange).mp counted
      exact ⟨known, cleared, clear, balanced⟩
    · rintro ⟨known, cleared, clear, balanced⟩
      exact ⟨_, ⟨known, clear, rfl⟩, (counted_hits_iff inRange).mpr ⟨cleared, balanced⟩⟩

end Runs

end Counting

/-- Group counts and group limits are exact. -/
theorem grouping_exact_iff {docattr : Docattr} {virtualRules : List KeyRule}
    {rules : List GroupbyRule} {documents : List VirtualEntry} {hits : List DocHit}
    (table : GroupTable) (fits : rules.length ≤ maxGroupRule)
    (documentsInRange : ∀ vd ∈ documents, InRange docattr rules vd.docattr)
    (hitsInRange : ∀ docHit ∈ hits, InRange docattr rules docHit.id) :
    ((∃ after, virtualDocumentGrouping docattr rules table documents =
          some (keptWithin docattr rules documents, after) ∧
        Counted docattr rules (documents.map VirtualEntry.docattr) after) ↔
      Cleared rules table ∧ ∀ place ∈ ranked documents, ∀ rule ∈ rules,
        ¬ Overflows rule.limit (virtualRank docattr rule place)) ∧
    ((∃ kept after, documentGrouping docattr virtualRules rules table hits = some (kept, after) ∧
        Counted docattr rules (hits.map DocHit.id) after) ↔
      (rules ≠ [] → ∀ docHit ∈ hits, (virtualIdList docattr virtualRules docHit).isSome) ∧
      Cleared rules table ∧
      (∀ place ∈ hitPlaces docattr virtualRules hits, ∀ rule ∈ rules,
        ¬ Overflows rule.limit (hitRank docattr rule place)) ∧
      Balanced docattr virtualRules rules hits) :=
  ⟨virtualDocumentGrouping_exact documentsInRange fits, documentGrouping_exact hitsInRange fits⟩

def shelves : Docattr := fun name =>
  if name = "cate" then some fun docid => .integer docid.toNat
  else if name = "volume" then some fun _ => .integer 5
  else none

def firstOfCate : List GroupbyRule := [⟨⟨⟨.docattr, "cate"⟩, .asc⟩, ⟨0, 1⟩⟩]

def sameVolume : List KeyRule := [⟨.docattr, "volume"⟩]

theorem shelves_inRange {docid : UInt32} (small : docid.toNat < maxCardinality) :
    InRange shelves firstOfCate docid := by
  intro rule isRule
  obtain rfl := List.mem_singleton.mp isRule
  have cardinality : maxCardinality = 1024 := rfl
  refine ⟨docid.toNat, small, ?_⟩
  have isNumber : getInteger shelves "cate" docid = some (toInt32 docid.toNat) := rfl
  rw [isNumber, toInt32, Int.bmod_eq_of_le (by omega) (by omega)]

theorem grouping_exact_two_categories :
    (∃ after, virtualDocumentGrouping shelves firstOfCate (fun _ _ => 0)
          [⟨5, 1, 10⟩, ⟨6, 2, 20⟩] =
        some (keptWithin shelves firstOfCate [⟨5, 1, 10⟩, ⟨6, 2, 20⟩], after) ∧
      Counted shelves firstOfCate [1, 2] after) ∧
    ∃ kept after, documentGrouping shelves [⟨.did, "DID"⟩] firstOfCate (fun _ _ => 0)
        [⟨1, 10⟩, ⟨2, 20⟩] = some (kept, after) ∧ Counted shelves firstOfCate [1, 2] after := by
  have exact := @grouping_exact_iff shelves [⟨.did, "DID"⟩] firstOfCate
    [⟨5, 1, 10⟩, ⟨6, 2, 20⟩] [⟨1, 10⟩, ⟨2, 20⟩] (fun _ _ => 0) (by decide)
    (by simp only [List.forall_mem_cons]
        exact ⟨shelves_inRange (by decide), shelves_inRange (by decide), by simp⟩)
    (by simp only [List.forall_mem_cons]
        exact ⟨shelves_inRange (by decide), shelves_inRange (by decide), by simp⟩)
  refine ⟨exact.1.mpr ⟨fun _ _ _ _ => rfl, by decide +kernel⟩, exact.2.mpr ⟨?_, ?_, ?_, ?_⟩⟩
  · exact fun _ => by decide +kernel
  · exact fun _ _ _ _ => rfl
  · decide +kernel
  · intro rule _ value _
    have apart : hitPlaces shelves [⟨.did, "DID"⟩] [⟨1, 10⟩, ⟨2, 20⟩] =
        [([], ⟨1, 10⟩), ([], ⟨2, 20⟩)] := by decide +kernel
    rw [apart]
    rfl

/-- Two hits of one virtual document are counted under the category of the first. -/
theorem grouping_counts_first_category :
    ¬ ∀ (docattr : Docattr) (virtualRules : List KeyRule) (rules : List GroupbyRule)
        (documents : List VirtualEntry) (hits : List DocHit),
      rules.length ≤ maxGroupRule → (∀ vd ∈ documents, InRange docattr rules vd.docattr) →
      (∀ docHit ∈ hits, InRange docattr rules docHit.id) →
        (∃ after, virtualDocumentGrouping docattr rules (fun _ _ => 0) documents =
            some (keptWithin docattr rules documents, after) ∧
          Counted docattr rules (documents.map VirtualEntry.docattr) after) ∧
        ∃ kept after,
          documentGrouping docattr virtualRules rules (fun _ _ => 0) hits = some (kept, after) ∧
            Counted docattr rules (hits.map DocHit.id) after := by
  intro claim
  obtain ⟨kept, after, grouped, counted⟩ :=
    (claim shelves sameVolume firstOfCate [] [⟨1, 10⟩, ⟨2, 20⟩] (by decide) (by simp)
      (by simp only [List.forall_mem_cons]
          exact ⟨shelves_inRange (by decide), shelves_inRange (by decide), by simp⟩)).2
  have uncounted : ((documentGrouping shelves sameVolume firstOfCate (fun _ _ => 0)
      [⟨1, 10⟩, ⟨2, 20⟩]).map fun result => result.2 0 2) = some 0 := by decide +kernel
  rw [grouped, Option.map_some, Option.some.injEq] at uncounted
  have one := counted 0 _ rfl 2 (by decide)
  exact absurd (uncounted.symm.trans one) (by decide +kernel)

end Wisebot.Grouping
