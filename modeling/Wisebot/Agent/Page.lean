import Mathlib.Tactic.IntervalCases
import Wisebot.Agent.LightSearch
import Wisebot.Lib.Paging

namespace Wisebot.Agent

open Wisebot.Lib.Paging

/-! The page that `agent_lightsearch` leaves, compared with the one that a single
node with all documents would return. -/

section Texts

theorem digitChar_spec {digit : Nat} (isDigit : digit < 10) :
    (Nat.digitChar digit).isDigit = true ∧
      (Nat.digitChar digit).toNat - '0'.toNat = digit := by
  interval_cases digit <;> decide

theorem readDigits_append {digits : Text} (value : Nat) (rest : Text)
    (all : ∀ char ∈ digits, char.isDigit = true) :
    readDigits value (digits ++ rest) = readDigits (readDigits value digits) rest := by
  induction digits generalizing value with
  | nil => rfl
  | cons char digits induction =>
    obtain ⟨isDigit, others⟩ := List.forall_mem_cons.mp all
    simp only [List.cons_append, readDigits, isDigit, if_true]
    exact induction _ others

theorem readDigits_toDigits (value : Nat) : readDigits 0 (Nat.toDigits 10 value) = value := by
  induction value using Nat.strong_induction_on with
  | _ value induction =>
    by_cases small : value < 10
    · obtain ⟨isDigit, isValue⟩ := digitChar_spec small
      rw [Nat.toDigits_of_lt_base small, readDigits, if_pos isDigit, isValue, readDigits]
      omega
    · obtain ⟨isDigit, isValue⟩ := digitChar_spec (Nat.mod_lt value (by decide : 0 < 10))
      rw [Nat.toDigits_of_base_le (by decide) (by omega), readDigits_append _ _ fun char =>
        Nat.isDigit_of_mem_toDigits (by decide) (by decide), induction (value / 10) (by omega),
        readDigits, if_pos isDigit, isValue, readDigits]
      omega

theorem printInt_ends (value : Int) : ∃ before last, printInt value = before ++ [last] ∧
    last.isDigit = true := by
  have digits : ∃ before last, Nat.toDigits 10 value.natAbs = before ++ [last] ∧
      last.isDigit = true := by
    rcases List.eq_nil_or_concat (Nat.toDigits 10 value.natAbs) with none | ⟨before, last, isDigits⟩
    · exact absurd none (List.ne_nil_of_length_pos Nat.length_toDigits_pos)
    · rw [List.concat_eq_append] at isDigits
      have member : last ∈ Nat.toDigits 10 value.natAbs := by simp [isDigits]
      exact ⟨before, last, isDigits,
        Nat.isDigit_of_mem_toDigits (by decide : 0 < 10) (by decide) member⟩
  obtain ⟨before, last, isDigits, isDigit⟩ := digits
  rw [printInt, isDigits]
  split
  · exact ⟨'-' :: before, last, rfl, isDigit⟩
  · exact ⟨before, last, rfl, isDigit⟩

theorem wrap32_of_range {value : Int} (lower : -2147483648 ≤ value) (upper : value < 2147483648) :
    wrap32 value = value := by
  rw [wrap32]
  omega

theorem wrap32_range (value : Int) : -2147483648 ≤ wrap32 value ∧ wrap32 value < 2147483648 := by
  rw [wrap32]
  omega

theorem isDigit_not_blank {char : Char} (isDigit : char.isDigit = true) :
    isSpace char = false ∧ char ≠ '-' ∧ char ≠ '+' ∧ char ≠ ',' := by
  refine ⟨?_, ?_, ?_, ?_⟩
  · rw [Bool.eq_false_iff]
    intro space
    simp only [isSpace, isBlank, Bool.or_eq_true, decide_eq_true_eq] at space
    rcases space with ((((rfl | rfl) | rfl) | rfl) | rfl) | rfl <;> exact absurd isDigit (by decide)
  · rintro rfl
    exact absurd isDigit (by decide)
  · rintro rfl
    exact absurd isDigit (by decide)
  · rintro rfl
    exact absurd isDigit (by decide)

theorem atoi_printInt {value : Int} (lower : -2147483648 ≤ value) (upper : value < 2147483648) :
    atoi (' ' :: printInt value) = value := by
  have blank : isSpace ' ' = true := by decide
  rw [atoi, List.dropWhile_cons_of_pos blank, printInt]
  by_cases negative : value < 0
  · rw [if_pos negative, List.dropWhile_cons_of_neg (by decide)]
    simp only [readDigits_toDigits]
    rw [wrap32_of_range (by omega) (by omega)]
    omega
  · have nonempty : Nat.toDigits 10 value.natAbs ≠ [] :=
      List.ne_nil_of_length_pos Nat.length_toDigits_pos
    obtain ⟨first, rest, isDigits⟩ := List.exists_cons_of_ne_nil nonempty
    have member : first ∈ Nat.toDigits 10 value.natAbs := by simp [isDigits]
    obtain ⟨notSpace, notMinus, notPlus, _⟩ :=
      isDigit_not_blank (Nat.isDigit_of_mem_toDigits (by decide : 0 < 10) (by decide) member)
    have isValue := readDigits_toDigits value.natAbs
    rw [isDigits] at isValue
    rw [if_neg negative, isDigits, List.dropWhile_cons_of_neg (by simp [notSpace])]
    split
    case h_1 same => exact absurd (List.cons.inj same).1 notMinus
    case h_2 same => exact absurd (List.cons.inj same).1 notPlus
    case h_3 =>
      rw [isValue, wrap32_of_range (by omega) (by omega)]
      omega

theorem makeLimitRule_asked (commentListSize : Nat) {cnt : Int} (lower : -2147483648 ≤ cnt)
    (upper : cnt < 2147483648) :
    makeLimitRule commentListSize (' ' :: '0' :: ',' :: ' ' :: printInt cnt) =
      ⟨0, min cnt commentListSize⟩ := by
  obtain ⟨before, last, isPrinted, isDigit⟩ := printInt_ends cnt
  have notBlank : isBlank last = false := by
    have notSpace := (isDigit_not_blank isDigit).1
    rw [isSpace, Bool.or_eq_false_iff, Bool.or_eq_false_iff] at notSpace
    exact notSpace.1.1
  have trimmed : sbTrim (' ' :: '0' :: ',' :: ' ' :: printInt cnt) =
      '0' :: ',' :: ' ' :: printInt cnt := by
    rw [sbTrim, List.dropWhile_cons_of_pos (by decide), List.dropWhile_cons_of_neg (by decide)]
    have reversed : ('0' :: ',' :: ' ' :: printInt cnt).reverse =
        last :: ('0' :: ',' :: ' ' :: before).reverse := by
      rw [isPrinted]
      simp
    rw [reversed, List.dropWhile_cons_of_neg (by simp [notBlank]), ← reversed, List.reverse_reverse]
  have start : atoi ['0'] = 0 := by decide
  rw [makeLimitRule, trimmed, if_neg (by simp), if_pos (by simp)]
  simp only [List.takeWhile_cons, List.dropWhile_cons, ne_eq, Char.reduceEq, not_false_eq_true,
    decide_true, not_true_eq_false, decide_false, if_true, Bool.false_eq_true, if_false,
    List.tail_cons, start, lt_irrefl, atoi_printInt lower upper, Limit.mk.injEq, true_and]
  split
  · omega
  · omega

variable {α : Type}

theorem addOperation_asked (env : Env α) (limit : Limit) :
    addOperation env (askedLimit limit).clause = some ⟨(askedLimit limit).clause,
      .limit ⟨0, min (wrap32 (limit.start + limit.cnt)) env.commentListSize⟩⟩ := by
  obtain ⟨lower, upper⟩ := wrap32_range (limit.start + limit.cnt)
  have isClause : (askedLimit limit).clause = 'L' :: 'I' :: 'M' :: 'I' :: 'T' :: ' ' :: '0' ::
      ',' :: ' ' :: printInt (wrap32 (limit.start + limit.cnt)) := rfl
  have isLimit : ∀ rest : Text, getClauseType ('L' :: 'I' :: 'M' :: 'I' :: 'T' :: ' ' :: '0' ::
      ',' :: ' ' :: rest) = some ("LIMIT".toList, .limit) := by
    intro rest
    rfl
  rw [isClause, addOperation, isLimit]
  exact congrArg (fun asked => some (Operation.mk _ (Rule.limit asked)))
    (makeLimitRule_asked env.commentListSize lower upper)

theorem makeLimitRule_range (commentListSize : Nat) (clause : Text) :
    0 ≤ (makeLimitRule commentListSize clause).start ∧
      (makeLimitRule commentListSize clause).start < 2147483648 ∧
      (makeLimitRule commentListSize clause).cnt < 2147483648 := by
  have range : ∀ text, atoi text < 2147483648 := by
    intro text
    rw [atoi]
    split <;> exact (wrap32_range _).2
  rw [makeLimitRule]
  split
  · simp
  · split
    · have start := range ((sbTrim clause).takeWhile (· ≠ ','))
      have cnt := range (((sbTrim clause).dropWhile (· ≠ ',')).tail)
      simp only
      split <;> split <;> omega
    · have cnt := range (sbTrim clause)
      simp only
      omega

end Texts

/-! Queries of `WHERE` clauses, one `ORDER_BY` and a `LIMIT`. -/

/-- The comparison of an `ORDER_BY` that leaves no ties. -/
structure StrictOrder {α : Type} (cmp : α → α → Int) : Prop where
  zero : ∀ first second, cmp first second = 0 ↔ first = second
  swap : ∀ first second, cmp first second < 0 ↔ 0 < cmp second first
  trans : ∀ first second third, cmp first second < 0 → cmp second third < 0 →
    cmp first third < 0

/-- What the agent relies on of `qsort2`. -/
structure Sorts {α : Type} (qsort2 : (α → α → Int) → List α → List α) : Prop where
  perm : ∀ cmp docs, (qsort2 cmp docs).Perm docs
  sorted : ∀ cmp docs, StrictOrder cmp →
    (qsort2 cmp docs).Pairwise fun first second => cmp first second ≤ 0

/-- A query with its operations, the rules of its `ORDER_BY` and its limit. -/
structure PageQuery {α : Type} (env : Env α) (lines : List Text) (operations : List Operation)
    (order : Text) (limit : Limit) : Prop where
  parsed : initRequest env lines = some operations
  shape : ∃ before sorting after cutting, operations = before ++ sorting :: after ++ [cutting] ∧
    sorting.rule = .orderBy order ∧ cutting.rule = .limit limit ∧
    ∀ operation ∈ before ++ after, ∃ expression, operation.rule = .where expression

section Queries

variable {α : Type} {env : Env α} {lines : List Text} {operations : List Operation} {order : Text}
  {limit : Limit}

/-- All `WHERE` clauses hold of a document. -/
def satisfies (env : Env α) (operations : List Operation) (doc : α) : Bool :=
  operations.all fun operation =>
    match operation.rule with
    | .where expression => env.cbWhere expression doc
    | _ => true

def matching (env : Env α) (operations : List Operation) (order : Text) (docs : List α) : List α :=
  env.qsort2 (env.cbOrderby order) (docs.filter (satisfies env operations))

theorem StrictOrder.antisymm {cmp : α → α → Int} (strict : StrictOrder cmp) :
    Std.Antisymm fun first second => cmp first second ≤ 0 where
  antisymm first second le ge := by
    rw [← strict.zero]
    by_contra nonzero
    have greater := (strict.swap first second).mp (by omega)
    omega

theorem StrictOrder.le_trans {cmp : α → α → Int} (strict : StrictOrder cmp) {first second third : α}
    (le : cmp first second ≤ 0) (next : cmp second third ≤ 0) : cmp first third ≤ 0 := by
  by_cases same : cmp first second = 0
  · rwa [(strict.zero first second).mp same]
  by_cases sameNext : cmp second third = 0
  · rwa [← (strict.zero second third).mp sameNext]
  exact (strict.trans first second third (by omega) (by omega)).le

theorem doFilterOperation_where {clauses : List Operation}
    (wheres : ∀ operation ∈ clauses, ∃ expression, operation.rule = .where expression)
    (docs : List α) :
    doFilterOperation env clauses docs = docs.filter (satisfies env clauses) := by
  induction clauses generalizing docs with
  | nil => exact (List.filter_eq_self.mpr fun _ _ => rfl).symm
  | cons operation clauses induction =>
    obtain ⟨⟨expression, isWhere⟩, others⟩ := List.forall_mem_cons.mp wheres
    have rest := induction others (docs.filter (env.cbWhere expression))
    rw [doFilterOperation] at rest ⊢
    rw [List.foldl_cons, operate, isWhere, rest, List.filter_filter]
    refine List.filter_congr fun doc _ => ?_
    simp only [satisfies, List.all_cons, isWhere]
    exact Bool.and_comm _ _

theorem PageQuery.filter_eq (query : PageQuery env lines operations order limit)
    (sorts : Sorts env.qsort2) (strict : StrictOrder (env.cbOrderby order)) (docs : List α) :
    doFilterOperation env operations.dropLast docs = matching env operations order docs := by
  obtain ⟨before, sorting, after, cutting, rfl, isOrder, isLimit, wheres⟩ := query.shape
  have beforeWheres := fun operation member => wheres operation (List.mem_append_left after member)
  have afterWheres := fun operation member => wheres operation (List.mem_append_right before member)
  have split : doFilterOperation env (before ++ sorting :: after) docs =
      (env.qsort2 (env.cbOrderby order) (docs.filter (satisfies env before))).filter
        (satisfies env after) := by
    rw [← doFilterOperation_where afterWheres, ← doFilterOperation_where beforeWheres,
      doFilterOperation, List.foldl_append, List.foldl_cons, operate, isOrder]
    rfl
  have same : satisfies env (before ++ sorting :: after ++ [cutting]) = fun doc =>
      satisfies env after doc && satisfies env before doc := by
    funext doc
    simp only [satisfies, List.all_append, List.all_cons, List.all_nil, isOrder, isLimit,
      Bool.true_and, Bool.and_true]
    exact Bool.and_comm _ _
  rw [List.dropLast_concat, split, matching, same, ← List.filter_filter]
  have antisymm := strict.antisymm
  refine List.Perm.eq_of_pairwise' ((sorts.sorted _ _ strict).filter _) (sorts.sorted _ _ strict) ?_
  exact ((sorts.perm _ _).filter _).trans (sorts.perm _ _).symm

theorem addOperation_clause {clause : Text} {operation : Operation}
    (added : addOperation env clause = some operation) : operation.clause = clause := by
  rw [addOperation] at added
  split at added <;> cases added <;> rfl

theorem initRequest_clauses (parsed : initRequest env lines = some operations) :
    ∀ operation ∈ operations, addOperation env operation.clause = some operation := by
  induction lines generalizing operations with
  | nil =>
    cases parsed
    simp
  | cons line lines induction =>
    rw [initRequest, List.mapM_cons] at parsed
    obtain ⟨operation, added, rest⟩ := Option.bind_eq_some_iff.mp parsed
    obtain ⟨others, parsedOthers, isWhole⟩ := Option.bind_eq_some_iff.mp rest
    cases isWhole
    refine List.forall_mem_cons.mpr ⟨?_, induction parsedOthers⟩
    rw [addOperation_clause added]
    exact added

theorem initRequest_getQueryString {good : List Operation}
    (added : ∀ operation ∈ good, addOperation env operation.clause = some operation)
    (last : Text) {cutting : Operation} (isCutting : addOperation env last = some cutting) :
    initRequest env (getQueryString good ++ [last]) = some (good ++ [cutting]) := by
  induction good with
  | nil => simp [initRequest, getQueryString, isCutting]
  | cons operation good induction =>
    obtain ⟨first, others⟩ := List.forall_mem_cons.mp added
    have rest := induction others
    rw [initRequest] at rest ⊢
    simp only [getQueryString, List.map_cons, List.cons_append] at rest ⊢
    rw [List.mapM_cons, first, rest]
    rfl

def nodeLimit (env : Env α) (limit : Limit) : Nat :=
  (min (wrap32 (limit.start + limit.cnt)) env.commentListSize).toNat

theorem PageQuery.lightSearch_eq (query : PageQuery env lines operations order limit)
    (sorts : Sorts env.qsort2) (strict : StrictOrder (env.cbOrderby order)) (docs : List α) :
    lightSearch env (getQueryString (operations.dropLast ++ [askedLimit limit])) docs =
      some ((matching env operations order docs).take (nodeLimit env limit)) := by
  have added := initRequest_clauses query.parsed
  have understood : initRequest env (getQueryString (operations.dropLast ++ [askedLimit limit])) =
      some (operations.dropLast ++ [⟨(askedLimit limit).clause,
        .limit ⟨0, min (wrap32 (limit.start + limit.cnt)) env.commentListSize⟩⟩]) := by
    rw [getQueryString, List.map_append]
    exact initRequest_getQueryString
      (fun operation member => added operation (List.dropLast_subset _ member)) _
      (addOperation_asked env limit)
  rw [lightSearch, understood, Option.map_some, doFilterOperation, List.foldl_append]
  have filtered := query.filter_eq sorts strict docs
  rw [doFilterOperation] at filtered
  rw [filtered]
  rfl

theorem receive_eq (env : Env α) {vdl docs : List α}
    (fits : vdl.length + docs.length ≤ env.maxDocHitsSize) :
    receive env vdl docs = some (.success, vdl ++ docs) := by
  induction docs generalizing vdl with
  | nil => rw [receive, List.append_nil]
  | cons doc docs induction =>
    rw [List.length_cons] at fits
    rw [receive, if_neg (by omega), if_neg (by omega), induction (by
      rw [List.length_append, List.length_singleton]
      omega), List.append_assoc, List.singleton_append]

theorem receiveAll_eq {query : List Text} {answer : List α → List α}
    (answers : ∀ docs, lightSearch env query docs = some (answer docs)) {vdl : List α}
    {nodes : List (List α)}
    (fits : vdl.length + ((nodes.map answer).flatten).length ≤ env.maxDocHitsSize) :
    receiveAll env query vdl nodes = some (.success, vdl ++ (nodes.map answer).flatten) := by
  induction nodes generalizing vdl with
  | nil => simp [receiveAll]
  | cons node nodes induction =>
    rw [List.map_cons, List.flatten_cons, List.length_append] at fits
    have received := receive_eq env (by omega : vdl.length + (answer node).length ≤ _)
    rw [receiveAll, answers]
    simp only [received]
    rw [induction (by rw [List.length_append]; omega), List.map_cons, List.flatten_cons,
      List.append_assoc]

def ReturnsPage (env : Env α) (operations : List Operation) (order : Text) (limit : Limit)
    (nodes : List (List α)) : Prop :=
  agentLightsearch env operations nodes = some (.success,
    page (matching env operations order nodes.flatten) limit.start.toNat limit.cnt.toNat)

theorem matching_parted (sorts : Sorts env.qsort2) (strict : StrictOrder (env.cbOrderby order))
    (operations : List Operation) {nodes : List (List α)} (distinct : nodes.flatten.Nodup) :
    Parted (fun first second => env.cbOrderby order first second ≤ 0)
      (matching env operations order nodes.flatten)
      (nodes.map (matching env operations order)) where
  nodup := ((sorts.perm _ _).nodup_iff).mpr (distinct.filter _)
  sorted := sorts.sorted _ _ strict
  perm := by
    refine (sorts.perm _ _).trans ?_
    clear distinct
    induction nodes with
    | nil => exact List.Perm.refl _
    | cons node nodes induction =>
      rw [List.flatten_cons, List.filter_append, List.map_cons, List.flatten_cons]
      exact (sorts.perm _ _).symm.append induction
  partSorted part member := by
    obtain ⟨node, _, rfl⟩ := List.mem_map.mp member
    exact sorts.sorted _ _ strict

theorem PageQuery.operations_eq (query : PageQuery env lines operations order limit)
    (sorts : Sorts env.qsort2) (strict : StrictOrder (env.cbOrderby order)) (docs : List α) :
    doFilterOperation env operations docs =
      page (matching env operations order docs) limit.start.toNat limit.cnt.toNat := by
  have filtered := query.filter_eq sorts strict docs
  obtain ⟨before, sorting, after, cutting, rfl, _, isLimit, _⟩ := query.shape
  rw [List.dropLast_concat, doFilterOperation] at filtered
  rw [doFilterOperation, List.foldl_append, filtered, List.foldl_cons, List.foldl_nil, operate,
    isLimit]
  rfl

theorem PageQuery.limit_range (query : PageQuery env lines operations order limit) :
    0 ≤ limit.start ∧ limit.start < 2147483648 ∧ limit.cnt < 2147483648 := by
  have added := initRequest_clauses query.parsed
  obtain ⟨before, sorting, after, cutting, rfl, _, isLimit, _⟩ := query.shape
  have last := added cutting (List.mem_append_right _ List.mem_cons_self)
  rw [addOperation] at last
  split at last
  case h_1 =>
    rw [← Option.some.inj last] at isLimit
    cases isLimit
  case h_2 =>
    rw [← Option.some.inj last] at isLimit
    cases isLimit
  case h_3 keyword _ =>
    rw [← Option.some.inj last] at isLimit
    obtain rfl := Rule.limit.inj isLimit
    exact makeLimitRule_range env.commentListSize _
  case h_4 => cases last

theorem PageQuery.agentLightsearch_eq (query : PageQuery env lines operations order limit)
    (sorts : Sorts env.qsort2) (strict : StrictOrder (env.cbOrderby order))
    {nodes : List (List α)} (distinct : nodes.flatten.Nodup)
    (fits : nodes.flatten.length ≤ env.maxDocHitsSize) :
    agentLightsearch env operations nodes = some (.success,
      page (matching env operations order
        ((nodes.map (matching env operations order)).map (List.take (nodeLimit env limit))).flatten)
        limit.start.toNat limit.cnt.toNat) := by
  have parted := matching_parted sorts strict operations distinct
  have cut : nodes.map (fun docs => (matching env operations order docs).take (nodeLimit env limit)) =
      (nodes.map (matching env operations order)).map (List.take (nodeLimit env limit)) := by
    rw [List.map_map]
    rfl
  have cutLength := (cut_sublist (nodeLimit env limit)
    (nodes.map (matching env operations order))).length_le
  rw [← parted.perm.length_eq, matching, (sorts.perm _ _).length_eq] at cutLength
  have fewer := List.length_filter_le (satisfies env operations) nodes.flatten
  have room : ([] : List α).length + ((nodes.map fun docs =>
      (matching env operations order docs).take (nodeLimit env limit)).flatten).length ≤
      env.maxDocHitsSize := by
    rw [cut, List.length_nil, Nat.zero_add]
    exact (cutLength.trans fewer).trans fits
  have received := receiveAll_eq (query.lightSearch_eq sorts strict) room
  rw [cut, List.nil_append] at received
  have isLast : ∃ clause, operations.getLast? = some ⟨clause, .limit limit⟩ := by
    obtain ⟨before, sorting, after, cutting, rfl, _, isLimit, _⟩ := query.shape
    refine ⟨cutting.clause, ?_⟩
    rw [List.getLast?_concat, ← isLimit]
  obtain ⟨clause, isLast⟩ := isLast
  rw [agentLightsearch, isLast]
  simp only [received]
  rw [query.operations_eq sorts strict]

variable [DecidableEq α]

/-- The page is empty, or its end can be asked for and no node has more of the
documents up to there than a node returns. -/
def WithinReach (env : Env α) (operations : List Operation) (order : Text) (limit : Limit)
    (nodes : List (List α)) : Prop :=
  page (matching env operations order nodes.flatten) limit.start.toNat limit.cnt.toNat = [] ∨
    limit.start + limit.cnt < 2147483648 ∧ ∀ node ∈ nodes,
      (((matching env operations order nodes.flatten).take
        (limit.start.toNat + limit.cnt.toNat)).filter (fun doc => doc ∈ node)).length ≤
        env.commentListSize

theorem matching_count (sorts : Sorts env.qsort2) (operations : List Operation) (order : Text)
    (docs node : List α) (count : Nat) :
    ((matching env operations order docs).take count).filter
        (fun doc => doc ∈ matching env operations order node) =
      ((matching env operations order docs).take count).filter (fun doc => doc ∈ node) := by
  refine List.filter_congr fun doc member => ?_
  have inDocs := (sorts.perm _ _).mem_iff.mp (List.mem_of_mem_take member)
  have satisfied := (List.mem_filter.mp inDocs).2
  simp only [matching, (sorts.perm _ _).mem_iff, List.mem_filter, satisfied, and_true]

/-- A page that is not empty is within the limit of the nodes exactly if its end
can be asked for and is within the size of the comment list. -/
theorem nodeLimit_iff (sorts : Sorts env.qsort2) {nodes : List (List α)}
    (startPos : 0 ≤ limit.start) (startLt : limit.start < 2147483648) (cntLt : limit.cnt < 2147483648)
    (nonempty : page (matching env operations order nodes.flatten) limit.start.toNat
      limit.cnt.toNat ≠ []) :
    (∀ node ∈ nodes, (((matching env operations order nodes.flatten).take
        (limit.start.toNat + limit.cnt.toNat)).filter (fun doc => doc ∈ node)).length ≤
        nodeLimit env limit) ↔
      limit.start + limit.cnt < 2147483648 ∧ ∀ node ∈ nodes,
        (((matching env operations order nodes.flatten).take
          (limit.start.toNat + limit.cnt.toNat)).filter (fun doc => doc ∈ node)).length ≤
          env.commentListSize := by
  have counts : 0 < limit.cnt := by
    by_contra none
    rw [page, Int.toNat_of_nonpos (by omega), List.take_zero] at nonempty
    exact nonempty rfl
  constructor
  · intro few
    have inRange : limit.start + limit.cnt < 2147483648 := by
      by_contra overflow
      have none : nodeLimit env limit = 0 := by
        rw [nodeLimit, wrap32]
        omega
      obtain ⟨last, before, after, isItems, isTake, _⟩ := page_last nonempty
      have inWhole : last ∈ matching env operations order nodes.flatten := by simp [isItems]
      have inNodes := (List.mem_filter.mp ((sorts.perm _ _).mem_iff.mp inWhole)).1
      obtain ⟨node, isNode, inNode⟩ := List.mem_flatten.mp inNodes
      have counted := few node isNode
      rw [none, Nat.le_zero, List.length_eq_zero_iff, List.filter_eq_nil_iff, isTake] at counted
      exact counted last (by simp) (by simpa using inNode)
    refine ⟨inRange, fun node isNode => (few node isNode).trans ?_⟩
    rw [nodeLimit]
    omega
  · rintro ⟨inRange, few⟩ node isNode
    have counted := few node isNode
    have bounded : (((matching env operations order nodes.flatten).take
        (limit.start.toNat + limit.cnt.toNat)).filter (fun doc => doc ∈ node)).length ≤
        limit.start.toNat + limit.cnt.toNat :=
      (List.length_filter_le _ _).trans (List.length_take_le _ _)
    rw [nodeLimit, wrap32_of_range (by omega) inRange]
    omega

/-- The agent returns the page of the whole list exactly if it is within reach. -/
theorem agentLightsearch_page_iff (query : PageQuery env lines operations order limit)
    (sorts : Sorts env.qsort2) (strict : StrictOrder (env.cbOrderby order))
    {nodes : List (List α)} (distinct : nodes.flatten.Nodup)
    (fits : nodes.flatten.length ≤ env.maxDocHitsSize) :
    doFilterOperation env operations nodes.flatten = page
        (matching env operations order nodes.flatten) limit.start.toNat limit.cnt.toNat ∧
      (ReturnsPage env operations order limit nodes ↔
        WithinReach env operations order limit nodes) := by
  refine ⟨query.operations_eq sorts strict _, ?_⟩
  obtain ⟨startPos, startLt, cntLt⟩ := query.limit_range
  have parted := matching_parted sorts strict operations distinct
  have antisymm := strict.antisymm
  have satisfied : ∀ doc ∈ ((nodes.map (matching env operations order)).map
      (List.take (nodeLimit env limit))).flatten, satisfies env operations doc = true := by
    intro doc member
    have inWhole := parted.perm.mem_iff.mpr ((cut_sublist _ _).subset member)
    exact (List.mem_filter.mp ((sorts.perm _ _).mem_iff.mp inWhole)).2
  have mergedPerm : (matching env operations order ((nodes.map (matching env operations order)).map
      (List.take (nodeLimit env limit))).flatten).Perm
      ((nodes.map (matching env operations order)).map (List.take (nodeLimit env limit))).flatten := by
    rw [matching, List.filter_eq_self.mpr satisfied]
    exact sorts.perm _ _
  have mergedSorted : (matching env operations order
      ((nodes.map (matching env operations order)).map (List.take (nodeLimit env limit))).flatten).Pairwise
      fun first second => env.cbOrderby order first second ≤ 0 := sorts.sorted _ _ strict
  rw [ReturnsPage, query.agentLightsearch_eq sorts strict distinct fits, Option.some.injEq,
    Prod.mk.injEq, parted.page_iff mergedSorted mergedPerm, WithinReach, and_iff_right rfl]
  by_cases empty : page (matching env operations order nodes.flatten) limit.start.toNat
      limit.cnt.toNat = []
  · simp only [empty, true_or]
  · simp only [empty, false_or, List.forall_mem_map, matching_count sorts]
    exact nodeLimit_iff sorts startPos startLt cntLt empty

end Queries

/-! Documents that are numbers, of which the odd ones are searched for. -/

def sampleEnv : Env Nat where
  commentListSize := 2
  maxDocHitsSize := 10
  cbWhere := fun _ doc => doc % 2 = 1
  cbOrderby := fun _ first second => (first : Int) - second
  qsort2 := fun cmp docs => docs.insertionSort fun first second => cmp first second ≤ 0

theorem sampleEnv_strict (rules : Text) : StrictOrder (sampleEnv.cbOrderby rules) where
  zero first second := by
    simp only [sampleEnv]
    omega
  swap first second := by
    simp only [sampleEnv]
    omega
  trans first second third := by
    simp only [sampleEnv]
    omega

theorem insertionSort_sorts {α : Type} :
    Sorts fun (cmp : α → α → Int) docs => docs.insertionSort fun first second =>
      cmp first second ≤ 0 where
  perm cmp docs := List.perm_insertionSort _ docs
  sorted cmp docs strict := by
    have total : Std.Total fun first second => cmp first second ≤ 0 :=
      ⟨fun first second => by
        have swapped := strict.swap first second
        omega⟩
    have trans : IsTrans α fun first second => cmp first second ≤ 0 :=
      ⟨fun first second third le next => strict.le_trans le next⟩
    exact List.pairwise_insertionSort _ docs

def sampleLines (limit : Text) : List Text :=
  ["WHERE delete=0".toList, "ORDER_BY rid".toList, limit]

def sampleOperations (clause : Text) (limit : Limit) : List Operation :=
  [⟨"WHERE delete=0".toList, .where " delete=0".toList⟩,
    ⟨"ORDER_BY rid".toList, .orderBy " rid".toList⟩, ⟨clause, .limit limit⟩]

theorem sampleOperations_query {clause : Text} {limit : Limit}
    (parsed : initRequest sampleEnv (sampleLines clause) = some (sampleOperations clause limit)) :
    PageQuery sampleEnv (sampleLines clause) (sampleOperations clause limit) " rid".toList limit where
  parsed := parsed
  shape := by
    refine ⟨[_], _, [], _, rfl, rfl, rfl, ?_⟩
    intro operation member
    rw [List.append_nil, List.mem_singleton] at member
    exact ⟨_, congrArg Operation.rule member⟩

/-- The second page of one document, over two nodes. -/
theorem agentLightsearch_page_second :
    agentLightsearch sampleEnv (sampleOperations "LIMIT 1, 1".toList ⟨1, 1⟩) [[5, 2], [3, 1]] =
      some (.success, [3]) := by
  have parsed : initRequest sampleEnv (sampleLines "LIMIT 1, 1".toList) =
      some (sampleOperations "LIMIT 1, 1".toList ⟨1, 1⟩) := by decide
  have query := sampleOperations_query parsed
  have reach : WithinReach sampleEnv (sampleOperations "LIMIT 1, 1".toList ⟨1, 1⟩) " rid".toList
      ⟨1, 1⟩ [[5, 2], [3, 1]] := .inr ⟨by decide, by decide⟩
  have returns := (agentLightsearch_page_iff query insertionSort_sorts (sampleEnv_strict _)
    (by decide) (by decide)).2.mpr reach
  exact returns

/-- The third of three documents on one node, of which two fit into the comment
list, is not returned. -/
theorem clipped_limit_loses_page :
    PageQuery sampleEnv (sampleLines "LIMIT 2, 1".toList)
        (sampleOperations "LIMIT 2, 1".toList ⟨2, 1⟩) " rid".toList ⟨2, 1⟩ ∧
      Sorts sampleEnv.qsort2 ∧ StrictOrder (sampleEnv.cbOrderby " rid".toList) ∧
      agentLightsearch sampleEnv (sampleOperations "LIMIT 2, 1".toList ⟨2, 1⟩) [[1, 3, 5]] =
        some (.success, []) ∧
      doFilterOperation sampleEnv (sampleOperations "LIMIT 2, 1".toList ⟨2, 1⟩) [1, 3, 5] = [5] ∧
      ¬ ReturnsPage sampleEnv (sampleOperations "LIMIT 2, 1".toList ⟨2, 1⟩) " rid".toList ⟨2, 1⟩
        [[1, 3, 5]] := by
  refine ⟨sampleOperations_query (by decide), insertionSort_sorts, sampleEnv_strict _, by decide,
    by decide, ?_⟩
  rw [ReturnsPage]
  decide

end Wisebot.Agent
