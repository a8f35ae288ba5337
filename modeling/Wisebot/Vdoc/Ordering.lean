import Mathlib.Data.List.Lex
import Mathlib.Data.List.Perm.Subperm
import Wisebot.Vdoc.Partition

namespace Wisebot.Vdoc

open Lib Runs

/-! Which document-level operations bring documents with the same key together. -/

/-- Two values whose order an `int` can tell: numbers that are near each other. -/
def DocattrValue.Near : DocattrValue → DocattrValue → Prop
  | .integer first, .integer second => (toInt32 first - toInt32 second).natAbs < 2147483648
  | .md5 first, .md5 second => (toInt32 first - toInt32 second).natAbs < 2147483648
  | _, _ => False

def Comparable (docattr : Docattr) (virtualRules : List KeyRule) (list : List DocHit) : Prop :=
  ∀ rule ∈ virtualRules, rule.type = .docattr ∧ ∃ value, docattr rule.name = some value ∧
    ∀ first ∈ list, ∀ second ∈ list, (value first.id).Near (value second.id)

def Operation.sorts : Operation → Bool
  | .groupBy _ => true
  | .orderBy _ => true
  | _ => false

section Comparing

theorem toInt32_sub (first second : Int) :
    toInt32 (first - second) = toInt32 (toInt32 first - toInt32 second) := by
  simp [toInt32, Int.sub_bmod_bmod, Int.bmod_sub_bmod]

theorem compareValues_near (hangulCompare : List UInt8 → List UInt8 → Int)
    {first second : DocattrValue} (near : first.Near second) :
    compareValues hangulCompare first second = first.toInteger - second.toInteger := by
  have small : ∀ difference : Int, difference.natAbs < 2147483648 →
      toInt32 difference = difference := by
    intro difference bound
    rw [toInt32, Int.bmod_eq_of_le] <;> omega
  cases first <;> cases second <;> simp only [DocattrValue.Near] at near
  · rw [compareValues, toInt32_sub, small _ near]
    rfl
  · rw [compareValues, toInt32_sub, small _ near]
    rfl

variable {docattr : Docattr} {hangulCompare : List UInt8 → List UInt8 → Int}
  {list : List DocHit}

def rank (docattr : Docattr) (virtualRules : List KeyRule) (dochit : DocHit) : List Int :=
  virtualRules.map fun rule => (getInteger docattr rule.name dochit.id).getD 0

theorem cbOrderbyDocument_rank {virtualRules : List KeyRule} {more : List OrderbyRule}
    (comparable : Comparable docattr virtualRules list) {first second : DocHit}
    (isFirst : first ∈ list) (isSecond : second ∈ list)
    (below : rank docattr virtualRules first < rank docattr virtualRules second) :
    cbOrderbyDocument docattr hangulCompare
        (virtualRules.map (fun rule => ⟨rule, .asc⟩) ++ more) first second < 0 ∧
      0 < cbOrderbyDocument docattr hangulCompare
        (virtualRules.map (fun rule => ⟨rule, .asc⟩) ++ more) second first := by
  induction virtualRules with
  | nil => exact absurd below (lt_irrefl _)
  | cons rule rest ih =>
    obtain ⟨isDocattr, value, isValue, near⟩ := comparable rule List.mem_cons_self
    have later := ih fun other member => comparable other (List.mem_cons_of_mem rule member)
    have forward := compareValues_near hangulCompare
      (near first isFirst second isSecond)
    have backward := compareValues_near hangulCompare
      (near second isSecond first isFirst)
    rw [rank, rank, List.map_cons, List.map_cons, getInteger, getInteger, isValue] at below
    simp only [Option.map_some, Option.getD_some] at below
    simp only [List.map_cons, List.cons_append, cbOrderbyDocument, isDocattr, isValue, forward,
      backward, OrderType.sign]
    rcases List.cons_lt_cons_iff.mp below with head | ⟨same, tail⟩
    · rw [if_pos (by omega), if_neg (by omega), if_pos (by omega), if_pos (by omega)]
      decide
    · rw [if_neg (by omega), if_neg (by omega)]
      exact later tail

theorem virtualIdList_eq_rank {virtualRules : List KeyRule}
    (comparable : Comparable docattr virtualRules list) (dochit : DocHit) :
    virtualIdList docattr virtualRules dochit = some (rank docattr virtualRules dochit) := by
  induction virtualRules with
  | nil => rfl
  | cons rule rest ih =>
    obtain ⟨isDocattr, value, isValue, -⟩ := comparable rule List.mem_cons_self
    have later := ih fun other member => comparable other (List.mem_cons_of_mem rule member)
    rw [virtualIdList] at later ⊢
    rw [List.mapM_cons, later]
    simp [keyValue, isDocattr, rank, getInteger, isValue]

theorem Comparable.mono {virtualRules : List KeyRule} {kept : List DocHit}
    (comparable : Comparable docattr virtualRules list) (sub : kept ⊆ list) :
    Comparable docattr virtualRules kept := by
  intro rule member
  obtain ⟨isDocattr, value, isValue, near⟩ := comparable rule member
  exact ⟨isDocattr, value, isValue,
    fun first isFirst second isSecond => near first (sub isFirst) second (sub isSecond)⟩

theorem Comparable.virtualOrder {virtualRules : List KeyRule}
    (comparable : Comparable docattr virtualRules list) :
    virtualOrder virtualRules = virtualRules.map fun rule => ⟨rule, .asc⟩ := by
  rw [Vdoc.virtualOrder, List.filter_eq_self.mpr]
  intro rule member
  rw [(comparable rule member).1]
  rfl

end Comparing

section Operations

variable {docattr : Docattr} {hangulCompare : List UInt8 → List UInt8 → Int}
  {qsort2 : (DocHit → DocHit → Int) → List DocHit → List DocHit}
  {setWhereExpression : String → Option (UInt32 → Bool)} {virtualRules : List KeyRule}

theorem groupingSame_sublist {rules : List GroupbyRule} {curr key groupCount : List Int}
    {list kept behind : List DocHit}
    (grouped : groupingSame docattr virtualRules rules curr key groupCount list =
      some (kept, behind)) : (kept ++ behind).Sublist list := by
  induction list generalizing groupCount kept behind with
  | nil =>
    rw [groupingSame, Option.some.injEq, Prod.mk.injEq] at grouped
    obtain ⟨rfl, rfl⟩ := grouped
    exact List.Sublist.refl _
  | cons dochit rest ih =>
    rw [groupingSame] at grouped
    split at grouped
    next => cases grouped
    next other _ =>
      split at grouped
      next =>
        rw [Option.some.injEq, Prod.mk.injEq] at grouped
        obtain ⟨rfl, rfl⟩ := grouped
        exact List.Sublist.refl _
      next =>
        split at grouped
        next => cases grouped
        next next _ =>
          split at grouped
          next => cases grouped
          next later stop isLater =>
            rw [Option.some.injEq, Prod.mk.injEq] at grouped
            obtain ⟨rfl, rfl⟩ := grouped
            split
            · exact (ih isLater).cons dochit
            · exact (ih isLater).cons_cons dochit

theorem groupingFrom_sublist {rules : List GroupbyRule} {fuel : Nat} {list kept : List DocHit}
    (grouped : groupingFrom docattr virtualRules rules fuel list = some kept) :
    kept.Sublist list := by
  induction fuel generalizing list kept with
  | zero =>
    cases list with
    | nil =>
      obtain rfl := Option.some.inj grouped
      exact List.Sublist.refl _
    | cons dochit rest => cases grouped
  | succ fuel ih =>
    cases list with
    | nil =>
      obtain rfl := Option.some.inj grouped
      exact List.Sublist.refl _
    | cons dochit rest =>
      rw [groupingFrom] at grouped
      split at grouped
      next curr key _ _ =>
        split at grouped
        next => cases grouped
        next same behind isSame =>
          split at grouped
          next => cases grouped
          next later isLater =>
            obtain rfl := Option.some.inj grouped
            have whole : (same ++ later).Sublist rest :=
              ((List.Sublist.refl same).append (ih isLater)).trans
                (groupingSame_sublist isSame)
            split
            · exact whole.cons dochit
            · exact whole.cons_cons dochit
      next => cases grouped

theorem documentGrouping_sublist {rules : List GroupbyRule} {list kept : List DocHit}
    (grouped : documentGrouping docattr virtualRules rules list = some kept) :
    kept.Sublist list := by
  rw [documentGrouping] at grouped
  split at grouped
  next =>
    obtain rfl := Option.some.inj grouped
    exact List.Sublist.refl _
  next => exact groupingFrom_sublist grouped

theorem operationWhere_sublist {clause : String} {list kept : List DocHit}
    (filtered : operationWhere setWhereExpression clause list = some kept) :
    kept.Sublist list := by
  obtain ⟨holds, -, rfl⟩ := Option.map_eq_some_iff.mp filtered
  exact List.filter_sublist

theorem operationLimit_sublist (rule : Limit) (list : List DocHit) :
    (operationLimit rule list).Sublist list := by
  rw [operationLimit]
  split
  · exact List.nil_sublist _
  · exact (List.take_sublist _ _).trans (List.drop_sublist _ _)

theorem operationGroupbyOrderby_spec (sorts : SortsByComparison qsort2)
    {groupbyRules : Option (List GroupbyRule)} {orderbyRules : Option (List OrderbyRule)}
    {list left : List DocHit}
    (operated : operationGroupbyOrderby docattr hangulCompare qsort2 virtualRules groupbyRules
      orderbyRules list = some left) :
    left.Subperm list ∧ (Comparable docattr virtualRules list →
      Together (virtualIdList docattr virtualRules) left) := by
  unfold operationGroupbyOrderby at operated
  rw [List.append_assoc] at operated
  dsimp only at operated
  have sub : left.Sublist (qsort2 (cbOrderbyDocument docattr hangulCompare
      (virtualOrder virtualRules ++ ((groupbyRules.getD []).map GroupbyRule.sort ++
        orderbyRules.getD []))) list) := by
    cases groupbyRules with
    | none =>
      obtain rfl := Option.some.inj operated
      exact List.Sublist.refl _
    | some rules => exact documentGrouping_sublist operated
  refine ⟨sub.subperm.trans (sorts.perm _ _).subperm, ?_⟩
  intro comparable
  have ordered := sorts.ordered (rank docattr virtualRules) (cbOrderbyDocument docattr
    hangulCompare (virtualOrder virtualRules ++ ((groupbyRules.getD []).map GroupbyRule.sort ++
      orderbyRules.getD []))) list (by
    intro first isFirst second isSecond below
    rw [comparable.virtualOrder]
    exact cbOrderbyDocument_rank comparable isFirst isSecond below)
  intro first between last three same
  rw [virtualIdList_eq_rank comparable, virtualIdList_eq_rank comparable] at same ⊢
  exact congrArg some (ordered.together first between last (three.trans sub) (Option.some.inj same))

/-- What the operations leave of a list: documents of it, with equal keys together if
they were together before or if one of the operations sorts. -/
structure Leaves (docattr : Docattr) (virtualRules : List KeyRule) (operations : List Operation)
    (list left : List DocHit) : Prop where
  sub : left.Subperm list
  sublist : (∀ operation ∈ operations, operation.sorts = false) → left.Sublist list
  together : Comparable docattr virtualRules list →
    (∃ operation ∈ operations, operation.sorts = true) ∨
      Together (virtualIdList docattr virtualRules) list →
    Together (virtualIdList docattr virtualRules) left

theorem Leaves.of_sublist {operation : Operation} (consumed : List Operation)
    {operations : List Operation} {list kept left : List DocHit} (filters : ∀ other ∈ operation :: consumed, other.sorts = false)
    (sub : kept.Sublist list) (leaves : Leaves docattr virtualRules operations kept left) :
    Leaves docattr virtualRules (operation :: (consumed ++ operations)) list left where
  sub := leaves.sub.trans sub.subperm
  sublist := by
    intro all
    exact (leaves.sublist fun other member =>
      all other (List.mem_cons_of_mem _ (List.mem_append_right _ member))).trans sub
  together := by
    intro comparable
    rintro (⟨sorting, member, isSorting⟩ | together)
    · refine leaves.together (comparable.mono sub.subset) (Or.inl ⟨sorting, ?_, isSorting⟩)
      rw [← List.cons_append] at member
      rcases List.mem_append.mp member with first | later
      · rw [filters sorting first] at isSorting
        cases isSorting
      · exact later
    · exact leaves.together (comparable.mono sub.subset) (Or.inr (together.sublist sub))

theorem Leaves.of_sorted {operation : Operation} {all operations : List Operation}
    {list sorted left : List DocHit} (isSorting : operation.sorts = true)
    (sub : sorted.Subperm list)
    (together : Comparable docattr virtualRules list →
      Together (virtualIdList docattr virtualRules) sorted)
    (leaves : Leaves docattr virtualRules operations sorted left) :
    Leaves docattr virtualRules (operation :: all) list left where
  sub := leaves.sub.trans sub
  sublist := by
    intro none_sorts
    rw [none_sorts operation List.mem_cons_self] at isSorting
    cases isSorting
  together := fun comparable _ =>
    leaves.together (comparable.mono sub.subset) (Or.inr (together comparable))

theorem joinCountBy_spec (rules : List GroupbyRule) (operations : List Operation) :
    ∃ consumed, operations = consumed ++ (joinCountBy rules operations).2 ∧
      ∀ operation ∈ consumed, operation.sorts = false := by
  induction operations generalizing rules with
  | nil => exact ⟨[], rfl, by simp⟩
  | cons operation rest ih =>
    cases operation with
    | countBy more =>
      obtain ⟨consumed, split, filters⟩ := ih (rules ++ more)
      refine ⟨.countBy more :: consumed, ?_, ?_⟩
      · rw [joinCountBy, List.cons_append, ← split]
      · intro other member
        rcases List.mem_cons.mp member with isHead | later
        · rw [isHead]
          rfl
        · exact filters other later
    | whereClause clause => exact ⟨[], rfl, by simp⟩
    | groupBy more => exact ⟨[], rfl, by simp⟩
    | orderBy order => exact ⟨[], rfl, by simp⟩
    | limit rule => exact ⟨[], rfl, by simp⟩

theorem doFilterOperation_leaves (sorts : SortsByComparison qsort2) {fuel : Nat}
    {operations : List Operation} {list left : List DocHit}
    (operated : doFilterOperation docattr hangulCompare qsort2 setWhereExpression virtualRules
      fuel operations list = some left) : Leaves docattr virtualRules operations list left := by
  have unchanged : ∀ list : List DocHit, Leaves docattr virtualRules [] list list := fun list =>
    ⟨List.Subperm.refl _, fun _ => List.Sublist.refl _, fun _ together => by simpa using together⟩
  induction fuel generalizing operations list with
  | zero =>
    cases operations with
    | nil =>
      obtain rfl := Option.some.inj operated
      exact unchanged list
    | cons operation rest => cases operated
  | succ fuel ih =>
    cases operations with
    | nil =>
      obtain rfl := Option.some.inj operated
      exact unchanged list
    | cons operation rest =>
      cases operation with
      | whereClause clause =>
        rw [doFilterOperation] at operated
        obtain ⟨kept, filtered, later⟩ := Option.bind_eq_some_iff.mp operated
        exact Leaves.of_sublist [] (by simp [Operation.sorts])
          (operationWhere_sublist filtered) (ih later)
      | limit rule =>
        rw [doFilterOperation] at operated
        exact Leaves.of_sublist [] (by simp [Operation.sorts])
          (operationLimit_sublist rule list) (ih operated)
      | countBy rules =>
        rw [doFilterOperation] at operated
        obtain ⟨consumed, split, filters⟩ := joinCountBy_spec rules rest
        obtain ⟨kept, counted, later⟩ := Option.bind_eq_some_iff.mp operated
        rw [split]
        refine Leaves.of_sublist consumed ?_ (documentGrouping_sublist counted) (ih later)
        intro other member
        rcases List.mem_cons.mp member with isHead | inConsumed
        · rw [isHead]
          rfl
        · exact filters other inConsumed
      | orderBy order =>
        rw [doFilterOperation] at operated
        obtain ⟨sorted, ordered, later⟩ := Option.bind_eq_some_iff.mp operated
        obtain ⟨sub, together⟩ := operationGroupbyOrderby_spec sorts ordered
        exact Leaves.of_sorted rfl sub together (ih later)
      | groupBy rules =>
        rw [doFilterOperation] at operated
        split at operated
        all_goals
          obtain ⟨sorted, ordered, later⟩ := Option.bind_eq_some_iff.mp operated
          obtain ⟨sub, together⟩ := operationGroupbyOrderby_spec sorts ordered
          exact Leaves.of_sorted rfl sub together (ih later)

end Operations

section Partition

theorem toInt32_injOn {first second : UInt32}
    (same : toInt32 first.toNat = toInt32 second.toNat) : first = second := by
  have firstSmall := first.toNat_lt
  have secondSmall := second.toNat_lt
  rw [toInt32, toInt32, Int.bmod_def, Int.bmod_def] at same
  refine UInt32.toNat_inj.mp ?_
  split at same <;> split at same <;> omega

theorem id_of_virtualIdList {docattr : Docattr} {virtualRules : List KeyRule}
    (isId : ∃ rule ∈ virtualRules, rule.type ≠ .docattr) {first second : DocHit}
    (known : (virtualIdList docattr virtualRules first).isSome = true)
    (same : virtualIdList docattr virtualRules first = virtualIdList docattr virtualRules second) :
    first.id = second.id := by
  induction virtualRules with
  | nil => simp at isId
  | cons rule rest ih =>
    rw [virtualIdList, List.mapM_cons] at known same
    rw [virtualIdList, List.mapM_cons] at same
    obtain ⟨tuple, isTuple⟩ := Option.isSome_iff_exists.mp known
    rw [isTuple] at same
    obtain ⟨value, isValue, restTuple⟩ := Option.bind_eq_some_iff.mp isTuple
    obtain ⟨other, isOther, otherTuple⟩ := Option.bind_eq_some_iff.mp same.symm
    obtain ⟨values, isValues, whole⟩ := Option.bind_eq_some_iff.mp restTuple
    obtain ⟨others, areOthers, otherWhole⟩ := Option.bind_eq_some_iff.mp otherTuple
    have equal := (Option.some.inj whole).trans (Option.some.inj otherWhole).symm
    rw [List.cons.injEq] at equal
    obtain ⟨chosen, member, notDocattr⟩ := isId
    rcases List.mem_cons.mp member with isHead | later
    · subst isHead
      have ids : keyValue docattr first chosen = keyValue docattr second chosen := by
        rw [isValue, isOther, equal.1]
      cases type : chosen.type with
      | docattr => exact absurd type notDocattr
      | did =>
        rw [keyValue, keyValue, type] at ids
        exact toInt32_injOn (Option.some.inj ids)
      | relevancy =>
        rw [keyValue, keyValue, type] at ids
        exact toInt32_injOn (Option.some.inj ids)
    · refine ih ⟨chosen, later, notDocattr⟩ ?_ ?_
      · rw [virtualIdList, isValues]
        rfl
      · rw [virtualIdList, virtualIdList, isValues, areOthers, equal.2]

theorem together_of_id {docattr : Docattr} {virtualRules : List KeyRule} {list : List DocHit}
    (isId : ∃ rule ∈ virtualRules, rule.type ≠ .docattr)
    (distinct : (list.map DocHit.id).Nodup)
    (known : ∀ dochit ∈ list, (virtualIdList docattr virtualRules dochit).isSome = true) :
    Together (virtualIdList docattr virtualRules) list := by
  refine together_of_nodup (List.Nodup.map_on ?_ distinct.of_map)
  intro first isFirst second isSecond equal
  exact List.inj_on_of_nodup_map distinct isFirst isSecond
    (id_of_virtualIdList isId (known first isFirst) equal)

/-- Virtual documents partition the list that the operations leave exactly if in it
documents of one key stand together and their relevances fit. They stand together if
a rule is for the id, if an operation sorts by keys that can be compared, or if no
operation sorts and they did before. -/
theorem makeVirtualDocument_partitions_iff (docattr : Docattr)
    (hangulCompare : List UInt8 → List UInt8 → Int)
    {qsort2 : (DocHit → DocHit → Int) → List DocHit → List DocHit}
    (setWhereExpression : String → Option (UInt32 → Bool)) (virtualRules : List KeyRule)
    (sorts : SortsByComparison qsort2) {operations : List Operation} {list left : List DocHit}
    {virtuals : List VirtualDocument} (distinct : (list.map DocHit.id).Nodup)
    (filtered : filterDocuments docattr hangulCompare qsort2 setWhereExpression virtualRules
      operations list = some left)
    (made : makeVirtualDocument docattr virtualRules left = some virtuals) :
    (Partitions (virtualIdList docattr virtualRules) left virtuals ↔
      Together (virtualIdList docattr virtualRules) left ∧
        RelevanceFits (virtualIdList docattr virtualRules) left) ∧
    ((∃ rule ∈ virtualRules, rule.type ≠ .docattr) →
      Together (virtualIdList docattr virtualRules) left) ∧
    ((∃ operation ∈ operations, operation.sorts = true) →
      Comparable docattr virtualRules list →
        Together (virtualIdList docattr virtualRules) left) ∧
    ((∀ operation ∈ operations, operation.sorts = false) →
      left.Sublist list ∧ (Together (virtualIdList docattr virtualRules) list →
        Together (virtualIdList docattr virtualRules) left)) := by
  have leaves := doFilterOperation_leaves sorts filtered
  have isMade := makeVirtualFrom_spec made
  refine ⟨isMade.partitions_iff, ?_, ?_, ?_⟩
  · intro isId
    obtain ⟨permuted, perm, sub⟩ := leaves.sub
    exact together_of_id isId
      ((perm.map DocHit.id).nodup ((sub.map DocHit.id).nodup distinct)) isMade.known
  · intro sorting comparable
    exact leaves.together comparable (Or.inl sorting)
  · intro none_sorts
    exact ⟨leaves.sublist none_sorts,
      fun together => together.sublist (leaves.sublist none_sorts)⟩

/-- One attribute `cate`; documents 1 and 3 are in category 1, document 2 in category 2. -/
def cate : Docattr := fun name =>
  if name = "cate" then some fun docid => .integer (if docid = 2 then 2 else 1) else none

def threeDocuments : List DocHit := [⟨1, 10⟩, ⟨2, 20⟩, ⟨3, 30⟩]

def byCate : List KeyRule := [⟨.docattr, "cate"⟩]

theorem makeVirtualDocument_partitions_sorted :
    ∃ left virtuals,
      filterDocuments cate (fun _ _ => 0) insertionSort (fun _ => some fun _ => true) byCate
        [.whereClause "delete=0", .orderBy [⟨⟨.relevancy, ""⟩, .desc⟩]] threeDocuments =
          some left ∧
      makeVirtualDocument cate byCate left = some virtuals ∧
      Partitions (virtualIdList cate byCate) left virtuals := by
  have filtered : filterDocuments cate (fun _ _ => 0) insertionSort
      (fun _ => some fun _ => true) byCate
      [.whereClause "delete=0", .orderBy [⟨⟨.relevancy, ""⟩, .desc⟩]] threeDocuments =
        some [⟨3, 30⟩, ⟨1, 10⟩, ⟨2, 20⟩] := by decide
  have made : makeVirtualDocument cate byCate [⟨3, 30⟩, ⟨1, 10⟩, ⟨2, 20⟩] =
      some [⟨1, [⟨3, 30⟩, ⟨1, 10⟩], 40⟩, ⟨2, [⟨2, 20⟩], 20⟩] := by decide
  have comparable : Comparable cate byCate threeDocuments := by
    intro rule member
    rw [byCate, List.mem_singleton] at member
    subst member
    refine ⟨rfl, _, rfl, ?_⟩
    intro first _ second _
    simp only [DocattrValue.Near]
    split <;> split <;> decide
  have fits : RelevanceFits (virtualIdList cate byCate) [⟨3, 30⟩, ⟨1, 10⟩, ⟨2, 20⟩] := by
    intro tuple
    simp only [List.filter_cons, List.filter_nil]
    split <;> split <;> split <;> decide
  obtain ⟨partitions, -, sorting, -⟩ := makeVirtualDocument_partitions_iff cate (fun _ _ => 0)
    (fun _ => some fun _ => true) byCate sortsByComparison_insertionSort (by decide) filtered made
  exact ⟨_, _, filtered, made,
    partitions.mpr ⟨sorting ⟨.orderBy [⟨⟨.relevancy, ""⟩, .desc⟩], by decide, rfl⟩ comparable,
      fits⟩⟩

/-- Without an order the two documents of category 1 are not neighbours. -/
theorem unsorted_documents_not_partitioned :
    ∃ left virtuals,
      filterDocuments cate (fun _ _ => 0) insertionSort (fun _ => some fun _ => true) byCate
        [.whereClause "delete=0"] threeDocuments = some left ∧
      makeVirtualDocument cate byCate left = some virtuals ∧
      ¬ Partitions (virtualIdList cate byCate) left virtuals := by
  have made : makeVirtualDocument cate byCate threeDocuments =
      some [⟨1, [⟨1, 10⟩], 10⟩, ⟨2, [⟨2, 20⟩], 20⟩, ⟨1, [⟨3, 30⟩], 30⟩] := by decide
  refine ⟨threeDocuments, _, by decide, made, ?_⟩
  intro partitions
  obtain ⟨together, -⟩ := (makeVirtualFrom_spec made).partitions_iff.mp partitions
  have same := together ⟨1, 10⟩ ⟨2, 20⟩ ⟨3, 30⟩ (List.Sublist.refl _) (by decide)
  exact absurd same (by decide)

end Partition

end Wisebot.Vdoc
