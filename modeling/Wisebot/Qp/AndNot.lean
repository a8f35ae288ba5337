import Mathlib.Order.BooleanAlgebra.Set
import Wisebot.Qp.Boolean

namespace Wisebot.Qp

open Wisebot.Lib

/-! `AND` with one negated operand. The loop of `operator_and_with_not` compares
with the entry behind the negated list as well, so what an earlier query or the
field filter left there decides whether a document is dropped. -/

/-- An `AND` node whose operands, the top of the stack first, can all be read and
of which one is negated. -/
structure NegatedNode (env : Env) (numOfOperands : Nat) (search : Search)
    (operands rest : List IndexList) : Prop where
  isStack : search.stack = operands ++ rest
  length : operands.length = numOfOperands
  several : 2 ≤ numOfOperands
  one : (operands.filter isExclude).length = 1
  sorted : ∀ list ∈ operands, ∃ hits, contents env list = some hits ∧
    hits.Pairwise fun first second => first.id ≤ second.id
  fits : ∀ list ∈ operands, list.docHits.isSome → list.ndochits ≤ env.maxDocHitsSize
  fakes : ∀ list ∈ operands, list.listType = .fakeOp → list.docHits = none

/-- The node takes its operands and leaves one list; of two operands, the
difference. -/
def LeavesDifference (env : Env) (numOfOperands : Nat) (search : Search)
    (operands rest : List IndexList) : Prop :=
  ∃ result after, operateAnd env numOfOperands search = some (.success, after) ∧
    after.stack = result :: rest ∧
    (numOfOperands = 2 → ∀ negated positive negatedHits positiveHits,
      operands.find? isExclude = some negated →
      operands.find? (fun list => !isExclude list) = some positive →
      contents env negated = some negatedHits → contents env positive = some positiveHits →
      docids result.hits = docids positiveHits \ docids negatedHits)

/-- The document of the entry behind the end of the negated list, once two
operands have been read; `none` if the list fills its buffer. -/
def behindEnd (env : Env) (pool : List Hits) : List IndexList → Option Nat
  | [operand2, operand1] =>
    let (read2, pool) := readIndexList env operand2 pool
    let (read1, _) := readIndexList env operand1 pool
    match if isExclude operand1 then read1 else read2 with
    | none => none
    | some negated =>
      match negated.docHits with
      | none => none
      | some docHits =>
        if negated.ndochits < env.maxDocHitsSize then some (docHits negated.ndochits).id
        else none
  | _ => none

/-- No document beyond the negated ones has the id of the entry behind them. -/
def NoStrayHit (env : Env) (pool : List Hits) (operands : List IndexList) : Prop :=
  ∀ negated positive negatedHits positiveHits, operands.find? isExclude = some negated →
    operands.find? (fun list => !isExclude list) = some positive →
    contents env negated = some negatedHits → contents env positive = some positiveHits →
    ∀ id ∈ docids positiveHits, (∀ other ∈ docids negatedHits, other < id) →
      ∃ stray, behindEnd env pool operands = some stray ∧ stray ≠ id

/-- Two operands without a stray hit, or more with the negated one below the two
topmost. -/
def Separable (env : Env) (numOfOperands : Nat) (pool : List Hits)
    (operands : List IndexList) : Prop :=
  (numOfOperands = 2 → NoStrayHit env pool operands) ∧
    (numOfOperands ≠ 2 → ∀ list ∈ operands.take 2, isExclude list = false)

section Loop

variable {env : Env} {negated : Hits} {count : Nat}

/-- The first entry of the negated list that is not below a document. -/
def notBelow (negated : Hits) (count id : Nat) : Nat := skipBelow negated id count 0

theorem skipBelow_spec (negated : Hits) (id remaining idx2 : Nat) :
    idx2 ≤ skipBelow negated id remaining idx2 ∧
      skipBelow negated id remaining idx2 ≤ idx2 + remaining ∧
      (∀ index, idx2 ≤ index → index < skipBelow negated id remaining idx2 →
        (negated index).id < id) ∧
      (skipBelow negated id remaining idx2 < idx2 + remaining →
        ¬ (negated (skipBelow negated id remaining idx2)).id < id) := by
  induction remaining generalizing idx2 with
  | zero =>
    refine ⟨le_rfl, le_rfl, ?_, by simp [skipBelow]⟩
    intro index behind before
    simp only [skipBelow] at before
    omega
  | succ remaining induction =>
    rw [skipBelow]
    split
    case isTrue less =>
      obtain ⟨lower, upper, below, notBelow⟩ := induction (idx2 + 1)
      refine ⟨by omega, by omega, ?_, fun inside => notBelow (by omega)⟩
      intro index behind before
      by_cases first : index = idx2
      · rw [first]
        exact less
      · exact below index (by omega) before
    case isFalse notLess => exact ⟨le_rfl, by omega, by omega, fun _ => notLess⟩

theorem skipBelow_resume {id idx2 : Nat} (inside : idx2 ≤ count)
    (below : ∀ index < idx2, (negated index).id < id) :
    skipBelow negated id (count - idx2) idx2 = notBelow negated count id := by
  obtain ⟨lower, upper, skipped, stops⟩ := skipBelow_spec negated id (count - idx2) idx2
  obtain ⟨_, wholeUpper, wholeSkipped, wholeStops⟩ := skipBelow_spec negated id count 0
  rw [notBelow]
  apply Nat.le_antisymm
  · by_contra greater
    refine wholeStops (by omega) ?_
    by_cases early : skipBelow negated id count 0 < idx2
    · exact below _ early
    · exact skipped _ (by omega) (by omega)
  · by_contra less
    exact stops (by omega) (wholeSkipped _ (Nat.zero_le _) (by omega))

theorem notBelow_mono {id other : Nat} (le : id ≤ other) :
    ∀ index < notBelow negated count id, (negated index).id < other := by
  intro index before
  exact ((skipBelow_spec negated id count 0).2.2.1 index (Nat.zero_le _) before).trans_le le

def stays (negated : Hits) (count : Nat) (hit : DocHit) : Bool :=
  (negated (notBelow negated count hit.id)).id ≠ hit.id

theorem andNotFrom_spec (env : Env) {operand : List DocHit} {idx2 : Nat} (result : Result)
    (sorted : operand.Pairwise fun first second => first.id ≤ second.id)
    (inside : idx2 ≤ count)
    (below : ∀ hit ∈ operand, ∀ index < idx2, (negated index).id < hit.id) :
    ((∀ hit ∈ operand, notBelow negated count hit.id < env.maxDocHitsSize) →
      ∃ grown, andNotFrom env negated count idx2 operand result = some grown ∧
        Result.hits grown = Result.hits result ++ operand.filter (stays negated count)) ∧
    ((∃ hit ∈ operand, env.maxDocHitsSize ≤ notBelow negated count hit.id) →
      andNotFrom env negated count idx2 operand result = none) := by
  induction operand generalizing idx2 result with
  | nil =>
    refine ⟨fun _ => ⟨result, rfl, by simp⟩, ?_⟩
    rintro ⟨hit, member, _⟩
    cases member
  | cons hit operand induction =>
    obtain ⟨first, rest⟩ := List.pairwise_cons.mp sorted
    obtain ⟨docHits, idx3⟩ := result
    have resumed := skipBelow_resume inside (below hit List.mem_cons_self)
    have upper : notBelow negated count hit.id ≤ count := by
      have := (skipBelow_spec negated hit.id count 0).2.1
      rw [notBelow]
      omega
    have restBelow : ∀ other ∈ operand, ∀ index < notBelow negated count hit.id,
        (negated index).id < other.id := fun other member => notBelow_mono (first other member)
    simp only [andNotFrom, resumed]
    by_cases outside : env.maxDocHitsSize ≤ notBelow negated count hit.id
    · rw [if_pos outside]
      refine ⟨?_, fun _ => rfl⟩
      intro all
      exact absurd outside (Nat.not_le.mpr (all hit List.mem_cons_self))
    · rw [if_neg outside]
      by_cases dropped : (negated (notBelow negated count hit.id)).id = hit.id
      · have gone : stays negated count hit = false := by simp [stays, dropped]
        obtain ⟨defined, undefined⟩ := induction (docHits, idx3) rest upper restBelow
        rw [if_pos dropped, List.filter_cons_of_neg (by rw [gone]; exact Bool.false_ne_true)]
        refine ⟨fun all => defined fun other member => all other (List.mem_cons_of_mem _ member),
          ?_⟩
        rintro ⟨other, member, large⟩
        rcases List.mem_cons.mp member with rfl | later
        · exact absurd large outside
        · exact undefined ⟨other, later, large⟩
      · have remains : stays negated count hit = true := by simp [stays, dropped]
        have grown : Result.hits (Function.update docHits idx3 hit, idx3 + 1) =
            Result.hits (docHits, idx3) ++ [hit] := Buffer.take_update docHits idx3 hit
        obtain ⟨defined, undefined⟩ :=
          induction (Function.update docHits idx3 hit, idx3 + 1) rest upper restBelow
        rw [grown, List.append_assoc, List.singleton_append] at defined
        rw [if_neg dropped, List.filter_cons_of_pos remains]
        refine ⟨fun all => defined fun other member => all other (List.mem_cons_of_mem _ member),
          ?_⟩
        rintro ⟨other, member, large⟩
        rcases List.mem_cons.mp member with rfl | later
        · exact absurd large outside
        · exact undefined ⟨other, later, large⟩

theorem notBelow_inside {id : Nat} (sorted : (negated.take count).Pairwise
      fun first second => first.id ≤ second.id) (inside : notBelow negated count id < count) :
    (negated (notBelow negated count id)).id = id ↔ id ∈ docids (negated.take count) := by
  obtain ⟨_, _, skipped, stops⟩ := skipBelow_spec negated id count 0
  rw [← notBelow] at skipped stops
  have atLeast : ¬ (negated (notBelow negated count id)).id < id := stops (by omega)
  have entry : ∀ index < count, negated index ∈ negated.take count := fun index bound =>
    List.mem_map_of_mem (List.mem_range.mpr bound)
  constructor
  · intro same
    exact ⟨_, entry _ inside, same⟩
  · rintro ⟨hit, member, rfl⟩
    obtain ⟨index, inRange, rfl⟩ := List.mem_map.mp member
    have bound := List.mem_range.mp inRange
    have le : notBelow negated count (negated index).id ≤ index := by
      by_contra before
      exact absurd (skipped index (Nat.zero_le _) (by omega)) (lt_irrefl _)
    have ordered : (negated (notBelow negated count (negated index).id)).id ≤
        (negated index).id := by
      rcases Nat.lt_or_eq_of_le le with less | same
      · have pairs := List.pairwise_iff_getElem.mp sorted _ index (by simpa using inside)
          (by simpa using bound) less
        simpa [Buffer.take] using pairs
      · rw [same]
    omega

theorem notBelow_beyond {id : Nat} :
    notBelow negated count id = count ↔ ∀ other ∈ docids (negated.take count), other < id := by
  obtain ⟨_, upper, skipped, stops⟩ := skipBelow_spec negated id count 0
  rw [← notBelow] at upper skipped stops
  constructor
  · rintro isCount other ⟨hit, member, rfl⟩
    obtain ⟨index, inRange, rfl⟩ := List.mem_map.mp member
    exact skipped index (Nat.zero_le _) (by rw [isCount]; exact List.mem_range.mp inRange)
  · intro all
    by_contra different
    refine stops (by omega) (all _ ⟨_, ?_, rfl⟩)
    exact List.mem_map_of_mem (List.mem_range.mpr (by omega))

theorem andNotFrom_difference_iff {operand : List DocHit} (docHits : Hits)
    (sorted : operand.Pairwise fun first second => first.id ≤ second.id)
    (negatedSorted : (negated.take count).Pairwise fun first second => first.id ≤ second.id)
    (fits : count ≤ env.maxDocHitsSize) :
    (∃ grown, andNotFrom env negated count 0 operand (docHits, 0) = some grown ∧
      docids (Result.hits grown) = docids operand \ docids (negated.take count)) ↔
    ∀ id ∈ docids operand, (∀ other ∈ docids (negated.take count), other < id) →
      count < env.maxDocHitsSize ∧ (negated count).id ≠ id := by
  have noneBefore : ∀ hit ∈ operand, ∀ index < 0, (negated index).id < hit.id := by simp
  obtain ⟨defined, undefined⟩ :=
    andNotFrom_spec env (docHits, 0) sorted (Nat.zero_le count) noneBefore
  constructor
  · rintro ⟨grown, ran, difference⟩ id ⟨hit, member, rfl⟩ beyond
    have isCount := notBelow_beyond.mpr beyond
    have all : ∀ other ∈ operand, notBelow negated count other.id < env.maxDocHitsSize := by
      by_contra some
      push Not at some
      rw [undefined some] at ran
      cases ran
    obtain ⟨same, isSame, hits⟩ := defined all
    cases ran.symm.trans isSame
    have room := all hit member
    rw [isCount] at room
    refine ⟨room, ?_⟩
    intro stray
    have notNegated : hit.id ∉ docids (negated.take count) := fun inNegated =>
      lt_irrefl _ (beyond hit.id inNegated)
    have inGrown : hit.id ∈ docids (Result.hits grown) := by
      rw [difference]
      exact ⟨⟨hit, member, rfl⟩, notNegated⟩
    rw [hits] at inGrown
    obtain ⟨other, inOther, sameId⟩ := inGrown
    have otherStays := (List.mem_filter.mp (by simpa [Result.hits] using inOther)).2
    simp only [stays, sameId, isCount, stray, ne_eq, not_true_eq_false, decide_false] at otherStays
    cases otherStays
  · intro clear
    have position : ∀ hit ∈ operand, notBelow negated count hit.id < count ∨
        notBelow negated count hit.id = count ∧ count < env.maxDocHitsSize ∧
          (negated count).id ≠ hit.id := by
      intro hit member
      have upper := (skipBelow_spec negated hit.id count 0).2.1
      rw [← notBelow] at upper
      by_cases isCount : notBelow negated count hit.id = count
      · exact .inr ⟨isCount, clear hit.id ⟨hit, member, rfl⟩ (notBelow_beyond.mp isCount)⟩
      · exact .inl (by omega)
    obtain ⟨grown, ran, hits⟩ := defined fun hit member => by
      rcases position hit member with inside | ⟨isCount, room, _⟩
      · omega
      · omega
    refine ⟨grown, ran, ?_⟩
    have kept : ∀ hit ∈ operand,
        (stays negated count hit = true ↔ hit.id ∉ docids (negated.take count)) := by
      intro hit member
      rcases position hit member with inside | ⟨isCount, _, noStray⟩
      · rw [← notBelow_inside negatedSorted inside]
        simp [stays]
      · have beyond := notBelow_beyond.mp isCount
        have notNegated : hit.id ∉ docids (negated.take count) := fun inNegated =>
          lt_irrefl _ (beyond hit.id inNegated)
        simp [stays, isCount, noStray, notNegated]
    rw [hits]
    ext id
    simp only [Result.hits, Buffer.take_zero, List.nil_append, mem_docids, Set.mem_sdiff,
      List.mem_filter]
    constructor
    · rintro ⟨hit, ⟨member, remains⟩, rfl⟩
      exact ⟨⟨hit, member, rfl⟩, (kept hit member).mp remains⟩
    · rintro ⟨⟨hit, member, rfl⟩, notNegated⟩
      exact ⟨hit, ⟨member, (kept hit member).mpr notNegated⟩, rfl⟩

end Loop

section Two

variable {env : Env} {search : Search} {rest : List IndexList}

theorem contents_length_le {list : IndexList} {hits : List DocHit}
    (fits : list.docHits.isSome → list.ndochits ≤ env.maxDocHitsSize)
    (isContents : contents env list = some hits) : hits.length ≤ env.maxDocHitsSize := by
  rw [contents] at isContents
  split at isContents
  case isTrue =>
    obtain rfl := Option.some.inj isContents
    rw [IndexList.hits]
    split
    case h_1 docHits isBuffer =>
      rw [Buffer.length_take]
      exact fits (by simp [isBuffer])
    case h_2 => exact Nat.zero_le _
  case isFalse =>
    obtain ⟨raw, isRaw, rfl⟩ := Option.map_eq_some_iff.mp isContents
    refine ((kept_sublist raw list.field).length_le).trans ?_
    rw [readFromDb] at isRaw
    split at isRaw
    · cases isRaw
    · cases isRaw
      exact Nat.zero_le _
    · cases isRaw
      rw [List.length_drop]
      omega

theorem ReadAs.negated_buffer {list read : IndexList} {hits : List DocHit}
    (readAs : ReadAs env list hits read) (negated : isExclude list = true) :
    ∃ docHits, read.docHits = some docHits ∧ docHits.take read.ndochits = hits := by
  have isExcluded : read.listType = .exclude := by
    rw [readAs.listType_eq]
    simpa [isExclude] using negated
  have buffer : read.docHits.isSome := by
    rcases readAs.isRead with isSome | fake | absent
    · exact isSome
    · rw [isExcluded] at fake
      cases fake
    · rw [isExcluded] at absent
      cases absent
  obtain ⟨docHits, isBuffer⟩ := Option.isSome_iff_exists.mp buffer
  refine ⟨docHits, isBuffer, ?_⟩
  have same := readAs.hits_eq
  rw [IndexList.hits, isBuffer] at same
  exact same

/-- The two lists `operator_and_with_not` has read, told apart. -/
structure Told (env : Env) (search : Search) (rest : List IndexList)
    (negated positive : IndexList) (docHits : Hits) (pool : List Hits) : Prop where
  buffer : negated.docHits = some docHits
  fake : positive.listType = .fakeOp → ∃ after,
    operatorAndWithNot env search = some (.success, after) ∧ after.stack = positive :: rest
  grown : ∀ grown, positive.listType ≠ .fakeOp →
    andNotFrom env docHits negated.ndochits 0 positive.hits ((getCompleteList pool).1.1, 0) =
      some grown →
    ∃ after, operatorAndWithNot env search = some (.success, after) ∧
      after.stack = mergedList grown.1 (getCompleteList pool).1.2 grown.2 0 :: rest
  undefined : positive.listType ≠ .fakeOp →
    andNotFrom env docHits negated.ndochits 0 positive.hits ((getCompleteList pool).1.1, 0) =
      none →
    operatorAndWithNot env search = none

theorem operatorAndWithNot_told {operand2 operand1 read2 read1 negated positive : IndexList}
    {pool2 pool1 : List Hits} {docHits : Hits}
    (isStack : search.stack = operand2 :: operand1 :: rest)
    (reading2 : readIndexList env operand2 search.pool = (some read2, pool2))
    (reading1 : readIndexList env operand1 pool2 = (some read1, pool1))
    (pair : (if read1.listType = .exclude then some (read1, read2)
      else if read2.listType = .exclude then some (read2, read1) else none) =
        some (negated, positive))
    (buffer : negated.docHits = some docHits) :
    Told env search rest negated positive docHits pool1 := by
  have ran : operatorAndWithNot env search = operatorAndWithNot env search := rfl
  conv_rhs at ran => rw [operatorAndWithNot, isStack]
  simp only [reading2, reading1, pair, buffer] at ran
  refine ⟨buffer, ?_, ?_, ?_⟩
  · intro fake
    rw [ran, if_pos fake]
    exact ⟨_, rfl, rfl⟩
  · intro grown notFake isGrown
    rw [ran, if_neg notFake, isGrown]
    exact ⟨_, rfl, rfl⟩
  · intro notFake undefined
    rw [ran, if_neg notFake, undefined]

theorem Told.leaves_iff {negated positive : IndexList} {negatedHits positiveHits : List DocHit}
    {docHits : Hits} {pool : List Hits} (told : Told env search rest negated positive docHits pool)
    (isNegated : docHits.take negated.ndochits = negatedHits) (isPositive : positive.hits = positiveHits)
    (negatedSorted : negatedHits.Pairwise fun first second => first.id ≤ second.id)
    (positiveSorted : positiveHits.Pairwise fun first second => first.id ≤ second.id)
    (fits : negated.ndochits ≤ env.maxDocHitsSize)
    (fakes : positive.listType = .fakeOp → positiveHits = []) :
    (∃ result after, operatorAndWithNot env search = some (.success, after) ∧
      after.stack = result :: rest ∧ docids result.hits = docids positiveHits \ docids negatedHits) ↔
    ∀ id ∈ docids positiveHits, (∀ other ∈ docids negatedHits, other < id) →
      negated.ndochits < env.maxDocHitsSize ∧ (docHits negated.ndochits).id ≠ id := by
  by_cases fake : positive.listType = .fakeOp
  · obtain ⟨after, ran, isStack⟩ := told.fake fake
    have empty := fakes fake
    subst empty
    refine ⟨fun _ => by simp, fun _ => ⟨positive, after, ran, isStack, ?_⟩⟩
    rw [isPositive, docids_nil]
    exact (Set.empty_sdiff _).symm
  · subst isNegated isPositive
    rw [← andNotFrom_difference_iff (getCompleteList pool).1.1 positiveSorted negatedSorted fits]
    cases outcome : andNotFrom env docHits negated.ndochits 0 positive.hits
        ((getCompleteList pool).1.1, 0) with
    | none =>
      rw [told.undefined fake outcome]
      simp
    | some grown =>
      obtain ⟨after, ran, isStack⟩ := told.grown grown fake outcome
      rw [ran]
      constructor
      · rintro ⟨result, same, isSame, stack, difference⟩
        cases isSame
        rw [isStack] at stack
        obtain ⟨rfl, _⟩ := List.cons_eq_cons.mp stack
        exact ⟨grown, rfl, difference⟩
      · rintro ⟨same, isSame, difference⟩
        cases isSame
        exact ⟨_, after, rfl, isStack, difference⟩

/-- Which operand is negated. -/
structure Sides (env : Env) (operands : List IndexList) (negated positive : IndexList)
    (negatedHits positiveHits : List DocHit) : Prop where
  isNegated : operands.find? isExclude = some negated
  isPositive : operands.find? (fun list => !isExclude list) = some positive
  negatedContents : contents env negated = some negatedHits
  positiveContents : contents env positive = some positiveHits

section Sided

variable {operands : List IndexList} {negated positive : IndexList}
  {negatedHits positiveHits : List DocHit}

theorem Sides.unique {otherNegated otherPositive : IndexList}
    {otherNegatedHits otherPositiveHits : List DocHit}
    (sides : Sides env operands negated positive negatedHits positiveHits)
    (isNegated : operands.find? isExclude = some otherNegated)
    (isPositive : operands.find? (fun list => !isExclude list) = some otherPositive)
    (negatedContents : contents env otherNegated = some otherNegatedHits)
    (positiveContents : contents env otherPositive = some otherPositiveHits) :
    otherNegatedHits = negatedHits ∧ otherPositiveHits = positiveHits := by
  obtain rfl := Option.some.inj (isNegated.symm.trans sides.isNegated)
  obtain rfl := Option.some.inj (isPositive.symm.trans sides.isPositive)
  exact ⟨Option.some.inj (negatedContents.symm.trans sides.negatedContents),
    Option.some.inj (positiveContents.symm.trans sides.positiveContents)⟩

theorem Sides.leavesDifference_iff
    (sides : Sides env operands negated positive negatedHits positiveHits)
    (withNot : operateAnd env 2 search = operatorAndWithNot env search) :
    LeavesDifference env 2 search operands rest ↔
      ∃ result after, operatorAndWithNot env search = some (.success, after) ∧
        after.stack = result :: rest ∧
        docids result.hits = docids positiveHits \ docids negatedHits := by
  rw [LeavesDifference, withNot]
  constructor
  · rintro ⟨result, after, ran, isStack, difference⟩
    exact ⟨result, after, ran, isStack, difference rfl _ _ _ _ sides.isNegated sides.isPositive
      sides.negatedContents sides.positiveContents⟩
  · rintro ⟨result, after, ran, isStack, difference⟩
    refine ⟨result, after, ran, isStack, ?_⟩
    intro _ otherNegated otherPositive otherNegatedHits otherPositiveHits isNegated isPositive
      negatedContents positiveContents
    obtain ⟨rfl, rfl⟩ := sides.unique isNegated isPositive negatedContents positiveContents
    exact difference

theorem Sides.noStrayHit_iff {pool : List Hits} {docHits : Hits} {count : Nat}
    (sides : Sides env operands negated positive negatedHits positiveHits)
    (behind : behindEnd env pool operands =
      if count < env.maxDocHitsSize then some (docHits count).id else none) :
    NoStrayHit env pool operands ↔
      ∀ id ∈ docids positiveHits, (∀ other ∈ docids negatedHits, other < id) →
        count < env.maxDocHitsSize ∧ (docHits count).id ≠ id := by
  have stray : ∀ id, (∃ stray, behindEnd env pool operands = some stray ∧ stray ≠ id) ↔
      count < env.maxDocHitsSize ∧ (docHits count).id ≠ id := by
    intro id
    rw [behind]
    split
    case isTrue room => simp [room]
    case isFalse full => simp [full]
  rw [NoStrayHit]
  constructor
  · intro noStray id member beyond
    exact (stray id).mp (noStray _ _ _ _ sides.isNegated sides.isPositive sides.negatedContents
      sides.positiveContents id member beyond)
  · intro clear otherNegated otherPositive otherNegatedHits otherPositiveHits isNegated isPositive
      negatedContents positiveContents id member beyond
    obtain ⟨rfl, rfl⟩ := sides.unique isNegated isPositive negatedContents positiveContents
    exact (stray id).mpr (clear id member beyond)

end Sided

theorem ReadAs.ndochits_le {list read : IndexList} {hits : List DocHit} {docHits : Hits}
    (readAs : ReadAs env list hits read) (buffer : read.docHits = some docHits)
    (fits : hits.length ≤ env.maxDocHitsSize) : read.ndochits ≤ env.maxDocHitsSize := by
  rw [readAs.length (by simp [buffer])]
  exact fits

theorem NegatedNode.two_iff {operand2 operand1 : IndexList}
    (node : NegatedNode env 2 search [operand2, operand1] rest) :
    LeavesDifference env 2 search [operand2, operand1] rest ↔
      NoStrayHit env search.pool [operand2, operand1] := by
  have member2 : operand2 ∈ [operand2, operand1] := List.mem_cons_self
  have member1 : operand1 ∈ [operand2, operand1] := List.mem_cons_of_mem _ List.mem_cons_self
  obtain ⟨hits2, contents2, sorted2⟩ := node.sorted operand2 member2
  obtain ⟨hits1, contents1, sorted1⟩ := node.sorted operand1 member1
  obtain ⟨read2, pool2, reading2, as2⟩ := readIndexList_spec search.pool contents2
  obtain ⟨read1, pool1, reading1, as1⟩ := readIndexList_spec pool2 contents1
  have isStack : search.stack = operand2 :: operand1 :: rest := node.isStack
  have fakeHits : ∀ list ∈ [operand2, operand1], ∀ hits, contents env list = some hits →
      list.listType = .fakeOp → hits = [] := by
    intro list member hits isContents fake
    have noBuffer := node.fakes list member fake
    simp only [contents, fake, or_true, true_or, if_true, Option.some.injEq] at isContents
    rw [← isContents, IndexList.hits, noBuffer]
  have one := node.one
  by_cases exclude1 : isExclude operand1 = true
  case pos =>
    have exclude2 : isExclude operand2 = false := by
      rw [Bool.eq_false_iff]
      intro both
      simp [exclude1, both] at one
    obtain ⟨docHits, buffer, isHits⟩ := as1.negated_buffer exclude1
    have type1 : read1.listType = .exclude := by
      rw [as1.listType_eq]
      simpa [isExclude] using exclude1
    have told := operatorAndWithNot_told isStack reading2 reading1 (if_pos type1) buffer
    have sides : Sides env [operand2, operand1] operand1 operand2 hits1 hits2 :=
      ⟨by simp [exclude1, exclude2], by simp [exclude2], contents1, contents2⟩
    have withNot : operateAnd env 2 search = operatorAndWithNot env search := by
      rw [operateAnd, isStack]
      simp [exclude1]
    have behind : behindEnd env search.pool [operand2, operand1] =
        if read1.ndochits < env.maxDocHitsSize then some (docHits read1.ndochits).id
        else none := by
      simp only [behindEnd, reading2, reading1, exclude1, if_true, buffer]
    rw [sides.leavesDifference_iff withNot, sides.noStrayHit_iff behind]
    refine told.leaves_iff isHits as2.hits_eq sorted1 sorted2 ?_ ?_
    · exact as1.ndochits_le buffer (contents_length_le (node.fits operand1 member1) contents1)
    · intro fake
      exact fakeHits operand2 member2 hits2 contents2 (as2.listType_eq ▸ fake)
  case neg =>
    have positive1 : isExclude operand1 = false := by simpa using exclude1
    have exclude2 : isExclude operand2 = true := by
      by_contra neither
      simp [positive1, neither] at one
    obtain ⟨docHits, buffer, isHits⟩ := as2.negated_buffer exclude2
    have type1 : read1.listType ≠ .exclude := by
      rw [as1.listType_eq]
      simpa [isExclude] using positive1
    have type2 : read2.listType = .exclude := by
      rw [as2.listType_eq]
      simpa [isExclude] using exclude2
    have told := operatorAndWithNot_told isStack reading2 reading1
      ((if_neg type1).trans (if_pos type2)) buffer
    have sides : Sides env [operand2, operand1] operand2 operand1 hits2 hits1 :=
      ⟨by simp [exclude2], by simp [exclude2, positive1], contents2, contents1⟩
    have withNot : operateAnd env 2 search = operatorAndWithNot env search := by
      rw [operateAnd, isStack]
      simp [exclude2]
    have behind : behindEnd env search.pool [operand2, operand1] =
        if read2.ndochits < env.maxDocHitsSize then some (docHits read2.ndochits).id
        else none := by
      simp only [behindEnd, reading2, reading1, positive1, Bool.false_eq_true, if_false, buffer]
    rw [sides.leavesDifference_iff withNot, sides.noStrayHit_iff behind]
    refine told.leaves_iff isHits as1.hits_eq sorted2 sorted1 ?_ ?_
    · exact as2.ndochits_le buffer (contents_length_le (node.fits operand2 member2) contents2)
    · intro fake
      exact fakeHits operand1 member1 hits1 contents1 (as1.listType_eq ▸ fake)

end Two

section More

variable {env : Env} {search : Search}

def Mergeable (env : Env) (list : IndexList) : Prop :=
  ∃ hits, contents env list = some hits ∧ Formed hits

theorem ReadAs.mergeable {list read : IndexList} {hits : List DocHit}
    (readAs : ReadAs env list hits read) (formed : Formed hits) : Mergeable env read :=
  ⟨hits, by rw [contents_of_read readAs.isRead, readAs.hits_eq], formed⟩

theorem mergeOperands_turn {l2 l1 : IndexList} {rest : List IndexList} (numOfOperands : Nat)
    (isStack : search.stack = l2 :: l1 :: rest) (mergeable2 : Mergeable env l2)
    (mergeable1 : Mergeable env l1) :
    ∃ list next, mergeOperands andMerge env (numOfOperands + 2) search =
        mergeOperands andMerge env (numOfOperands + 1) next ∧
      next.stack = list :: rest ∧ Mergeable env list := by
  obtain ⟨hits2, contents2, formed2⟩ := mergeable2
  obtain ⟨hits1, contents1, formed1⟩ := mergeable1
  obtain ⟨read2, pool2, reading2, as2⟩ := readIndexList_spec search.pool contents2
  obtain ⟨read1, pool1, reading1, as1⟩ := readIndexList_spec pool2 contents1
  rw [mergeOperands, isStack]
  simp only [reading2, reading1]
  by_cases fake1 : read1.listType = .fakeOp
  · rw [if_pos fake1]
    exact ⟨read2, _, rfl, rfl, as2.mergeable formed2⟩
  by_cases fake2 : read2.listType = .fakeOp
  · rw [if_neg fake1, if_pos fake2]
    exact ⟨read1, _, rfl, rfl, as1.mergeable formed1⟩
  obtain ⟨grown, isGrown, merged⟩ :=
    andMerge_mergesAs.eachList env (getCompleteList pool1).1.1 formed1 formed2
  rw [← as1.hits_eq, ← as2.hits_eq] at isGrown
  rw [if_neg fake1, if_neg fake2, isGrown]
  exact ⟨_, _, rfl, rfl, _, contents_of_read (.inl rfl), merged.formed⟩

theorem mergeOperands_leaves {operands rest : List IndexList} {numOfOperands : Nat}
    (isStack : search.stack = operands ++ rest) (length : operands.length = numOfOperands)
    (atLeastOne : 1 ≤ numOfOperands) (mergeable : ∀ list ∈ operands, Mergeable env list) :
    ∃ result after, mergeOperands andMerge env numOfOperands search = some (.success, after) ∧
      after.stack = result :: rest := by
  induction numOfOperands generalizing search operands with
  | zero => omega
  | succ numOfOperands induction =>
    cases operands with
    | nil => simp at length
    | cons l2 operands =>
      cases operands with
      | nil =>
        obtain rfl : numOfOperands = 0 := by simpa using length.symm
        exact ⟨l2, search, by rw [mergeOperands]; simp, isStack⟩
      | cons l1 operands =>
        obtain ⟨remaining, rfl⟩ : ∃ remaining, numOfOperands = remaining + 1 :=
          ⟨operands.length, by simpa using length.symm⟩
        obtain ⟨list, next, turned, isNext, isMergeable⟩ := mergeOperands_turn remaining
          isStack (mergeable l2 List.mem_cons_self)
          (mergeable l1 (List.mem_cons_of_mem _ List.mem_cons_self))
        have nextStack : next.stack = (list :: operands) ++ rest := isNext
        rw [turned]
        refine induction nextStack ?_ ?_ ?_
        · simpa using length
        · omega
        · intro other member
          rcases List.mem_cons.mp member with rfl | later
          · exact isMergeable
          · exact mergeable other (List.mem_cons_of_mem _ (List.mem_cons_of_mem _ later))

theorem operatorAndWithNot_stack {operand2 operand1 : IndexList} {rest : List IndexList}
    {after : Search} (isStack : search.stack = operand2 :: operand1 :: rest)
    (ran : operatorAndWithNot env search = some (.success, after)) :
    after.stack.length = rest.length + 1 := by
  rw [operatorAndWithNot, isStack] at ran
  simp only at ran
  grind

theorem NegatedNode.more_iff {numOfOperands : Nat} {operands rest : List IndexList}
    (node : NegatedNode env numOfOperands search operands rest) (more : numOfOperands ≠ 2)
    (formed : ∀ list ∈ operands, ∀ hits, contents env list = some hits → Formed hits) :
    LeavesDifference env numOfOperands search operands rest ↔
      ∀ list ∈ operands.take 2, isExclude list = false := by
  have length := node.length
  have several := node.several
  obtain ⟨operand2, tail, rfl⟩ := List.exists_cons_of_length_pos (l := operands) (by omega)
  obtain ⟨operand1, tail, rfl⟩ := List.exists_cons_of_length_pos (l := tail) (by
    simp only [List.length_cons] at length
    omega)
  have isStack : search.stack = operand2 :: operand1 :: (tail ++ rest) := node.isStack
  simp only [List.length_cons] at length
  rw [List.take_succ_cons, List.take_succ_cons, List.take_zero]
  constructor
  · rintro ⟨result, after, ran, afterStack, _⟩
    by_contra negated
    have withNot : operateAnd env numOfOperands search = operatorAndWithNot env search := by
      rw [operateAnd, isStack]
      simp only [List.forall_mem_cons, List.not_mem_nil, false_imp_iff, implies_true, and_true,
        not_and, Bool.not_eq_false] at negated
      cases exclude2 : isExclude operand2 with
      | true => simp [exclude2]
      | false => simp [negated exclude2]
    rw [withNot] at ran
    have left := operatorAndWithNot_stack isStack ran
    rw [afterStack, List.length_cons, List.length_append] at left
    omega
  · intro positive
    have merges : operateAnd env numOfOperands search =
        mergeOperands andMerge env numOfOperands search := by
      rw [operateAnd, isStack]
      simp [positive operand2, positive operand1]
    have mergeable : ∀ list ∈ operand2 :: operand1 :: tail, Mergeable env list := by
      intro list member
      obtain ⟨hits, isContents, _⟩ := node.sorted list member
      exact ⟨hits, isContents, formed list member hits isContents⟩
    obtain ⟨result, after, ran, afterStack⟩ :=
      mergeOperands_leaves node.isStack node.length (by omega) mergeable
    exact ⟨result, after, merges.trans ran, afterStack, fun two => absurd two more⟩

def negatedSearch : Search where
  pool := []
  stack := [{ operandList 2 1 false with listType := .exclude }, operandList 1 1 false]
  merged := []

theorem negatedSearch_reached (env : Env) :
    operateNodes env [.operand 1 1 false, .operand 2 1 false, .operator .not 1] ⟨[], [], []⟩ =
      some (.success, negatedSearch) := by
  rfl

theorem negatedSearch_node {env : Env} {hits1 hits2 : List DocHit}
    (posting1 : readFromDb env 1 = some hits1) (posting2 : readFromDb env 2 = some hits2)
    (sorted1 : hits1.Pairwise fun first second => first.id ≤ second.id)
    (sorted2 : hits2.Pairwise fun first second => first.id ≤ second.id) :
    NegatedNode env 2 negatedSearch negatedSearch.stack [] where
  isStack := (List.append_nil _).symm
  length := rfl
  several := le_rfl
  one := by decide
  sorted := by
    intro list member
    simp only [negatedSearch, List.mem_cons, List.not_mem_nil, or_false] at member
    rcases member with rfl | rfl
    · exact ⟨kept hits2 1, by simp [contents, operandList, posting2],
        sorted2.sublist (kept_sublist _ _)⟩
    · exact ⟨kept hits1 1, by simp [contents, operandList, posting1],
        sorted1.sublist (kept_sublist _ _)⟩
  fits := by
    simp [negatedSearch, operandList]
  fakes := by
    simp [negatedSearch, operandList]

/-- The second word is in document 1 only, and that is all there is behind its
entry. -/
def clearEnv : Env where
  maxDocHitsSize := 8
  posting := fun wordid =>
    if wordid = 1 then .entries [⟨1, 1⟩, ⟨2, 1⟩] else .entries [⟨1, 1⟩]

/-- The second word is in document 2 too, but in another field. -/
def strayEnv : Env where
  maxDocHitsSize := 8
  posting := fun wordid =>
    if wordid = 1 then .entries [⟨2, 1⟩] else .entries [⟨1, 1⟩, ⟨2, 2⟩]

end More

end Wisebot.Qp
