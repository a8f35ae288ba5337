import Mathlib.Algebra.Order.BigOperators.Group.Finset
import Wisebot.Qp.Merge

namespace Wisebot.Qp

open Wisebot.Lib

/-! `read_index_list`: the entries a list has once it has been read. -/

/-- The entries of the wanted fields; all entries where every field is wanted. -/
def kept (hits : List DocHit) (field : BitVec 32) : List DocHit :=
  if field = BitVec.allOnes 32 then hits else hits.filter fun hit => meets hit field

/-- The entries after reading, `none` where that fails. -/
def contents (env : Env) (list : IndexList) : Option (List DocHit) :=
  if list.docHits.isSome ∨ list.listType = .fakeOp ∨ list.listType = .notExistWord then
    some list.hits
  else (readFromDb env list.wordid).map fun hits => kept hits list.field

theorem kept_sublist (hits : List DocHit) (field : BitVec 32) :
    (kept hits field).Sublist hits := by
  rw [kept]
  split
  · exact List.Sublist.refl _
  · exact List.filter_sublist

theorem filterField_spec (field : BitVec 32) (remaining : Nat) {index idx : Nat} (docHits : Hits)
    (behind : idx ≤ index) :
    (filterField field remaining index idx docHits).2.take
        (filterField field remaining index idx docHits).1 =
      docHits.take idx ++ ((List.range remaining).map fun count =>
        docHits (index + count)).filter fun hit => meets hit field := by
  induction remaining generalizing index idx docHits with
  | zero => simp [filterField]
  | succ remaining induction =>
    have shifted : (List.range (remaining + 1)).map (fun count => docHits (index + count)) =
        docHits index :: (List.range remaining).map fun count =>
          docHits (index + 1 + count) := by
      rw [List.range_succ_eq_map, List.map_cons, List.map_map]
      refine List.cons_eq_cons.mpr ⟨rfl, ?_⟩
      refine List.map_congr_left fun count _ => ?_
      simp only [Function.comp_apply, Nat.succ_eq_add_one]
      congr 1
      omega
    rw [filterField, shifted]
    split
    case isTrue wanted =>
      have unread : (List.range remaining).map (fun count =>
          Function.update docHits idx (docHits index) (index + 1 + count)) =
          (List.range remaining).map fun count => docHits (index + 1 + count) := by
        refine List.map_congr_left fun count _ => ?_
        exact Function.update_of_ne (by omega) _ _
      rw [induction _ (Nat.succ_le_succ behind), Buffer.take_update, unread, List.append_assoc,
        List.filter_cons, if_pos wanted, List.singleton_append]
    case isFalse unwanted =>
      rw [induction docHits (Nat.le_succ_of_le behind), List.filter_cons, if_neg unwanted]

def IndexList.Read (list : IndexList) : Prop :=
  list.docHits.isSome ∨ list.listType = .fakeOp ∨ list.listType = .notExistWord

instance (list : IndexList) : Decidable list.Read := by
  unfold IndexList.Read
  infer_instance

structure ReadAs (env : Env) (list : IndexList) (hits : List DocHit) (read : IndexList) :
    Prop where
  hits_eq : read.hits = hits
  listType_eq : read.listType = list.listType
  isRead : read.Read
  length : read.docHits.isSome → read.ndochits = hits.length

theorem readIndexList_spec {env : Env} {list : IndexList} {hits : List DocHit}
    (pool : List Hits) (isContents : contents env list = some hits) :
    ∃ read after, readIndexList env list pool = (some read, after) ∧
      ReadAs env list hits read := by
  rw [contents] at isContents
  rw [readIndexList]
  split at isContents
  case isTrue complete =>
    rw [if_pos complete]
    obtain rfl := Option.some.inj isContents
    refine ⟨list, pool, rfl, rfl, rfl, complete, ?_⟩
    intro isSome
    obtain ⟨docHits, isBuffer⟩ := Option.isSome_iff_exists.mp isSome
    simp [IndexList.hits, isBuffer]
  case isFalse incomplete =>
    rw [if_neg incomplete]
    obtain ⟨raw, isRaw, rfl⟩ := Option.map_eq_some_iff.mp isContents
    obtain ⟨⟨docHits, pooled⟩, after⟩ := getCompleteList pool
    simp only [isRaw]
    have written : (docHits.write 0 raw).take raw.length = raw := by
      have whole := Buffer.take_write docHits 0 raw
      rwa [Nat.zero_add] at whole
    split
    case isTrue all =>
      refine ⟨_, after, rfl, ?_, rfl, .inl rfl, ?_⟩
      · simp only [IndexList.hits, written, kept, if_pos all]
      · intro _
        simp only [kept, if_pos all]
    case isFalse some =>
      have filtered := filterField_spec list.field raw.length (docHits.write 0 raw) (le_refl 0)
      simp only [Nat.zero_add, Buffer.take_zero, List.nil_append] at filtered
      have same : (List.range raw.length).map (fun count => (docHits.write 0 raw) count) = raw :=
        written
      rw [same] at filtered
      refine ⟨_, after, rfl, ?_, rfl, .inl rfl, ?_⟩
      · simp only [IndexList.hits, filtered, kept, if_neg some]
      · intro _
        simp only [kept, if_neg some]
        have length := congrArg List.length filtered
        rwa [Buffer.length_take] at length

theorem contents_of_read {env : Env} {list : IndexList} (isRead : list.Read) :
    contents env list = some list.hits := by
  rw [contents]
  exact if_pos isRead

/-! A postfix query of `AND` and `OR` as an expression over sets of documents,
and `do_search_operation` as its evaluation. -/

/-- The file of a word as a list of entries, `none` where it cannot be read. -/
def Posting.hits : Posting → Option (List DocHit)
  | .failed => none
  | .absent => some []
  | .entries hits => some hits

def unknownWord : Nat := 0

/-- The documents an operand stands for; `wanted` tells which entries count. -/
def operandDocs (env : Env) (wanted : DocHit → BitVec 32 → Prop) (wordid : Nat)
    (field : BitVec 32) : Set Nat :=
  { id | wordid ≠ unknownWord ∧ ∃ hits, (env.posting wordid).hits = some hits ∧
    ∃ hit ∈ hits, hit.id = id ∧ wanted hit field }

def interAll (sets : List (Set Nat)) : Set Nat := { id | ∀ docs ∈ sets, id ∈ docs }

def unionAll (sets : List (Set Nat)) : Set Nat := { id | ∃ docs ∈ sets, id ∈ docs }

/-- The value of a well-formed query of operands, `AND` and `OR`, the top of the
stack first; other queries have none. -/
def denote (env : Env) (wanted : DocHit → BitVec 32 → Prop) :
    List QueryNode → List (Set Nat) → Option (List (Set Nat))
  | [], stack => some stack
  | .operand wordid field fake :: nodes, stack =>
    if fake then none else denote env wanted nodes (operandDocs env wanted wordid field :: stack)
  | .operator operator numOfOperands :: nodes, stack =>
    if numOfOperands < 2 ∨ stack.length < numOfOperands then none
    else
      match operator with
      | .and => denote env wanted nodes
          (interAll (stack.take numOfOperands) :: stack.drop numOfOperands)
      | .or => denote env wanted nodes
          (unionAll (stack.take numOfOperands) :: stack.drop numOfOperands)
      | _ => none

def GoodPostings (env : Env) (nodes : List QueryNode) : Prop :=
  ∀ wordid field fake, QueryNode.operand wordid field fake ∈ nodes → wordid ≠ unknownWord →
    ∃ hits, (env.posting wordid).hits = some hits ∧ hits.length ≤ env.maxDocHitsSize ∧
      Formed hits

/-- What `read_index_list` takes: every entry if the mask has all fields. -/
def taken (hit : DocHit) (field : BitVec 32) : Prop :=
  field = BitVec.allOnes 32 ∨ meets hit field = true

def NoneFull (env : Env) (merged : List Nat) : Prop := ∀ size ∈ merged, size < env.maxDocHitsSize

structure Carries (env : Env) (merged : List Nat) (list : IndexList) (docs : Set Nat) : Prop where
  plain : list.listType = .normal ∨ list.listType = .notExistWord
  holds : ∃ hits, contents env list = some hits ∧ Formed hits ∧
    (NoneFull env merged → docids hits = docs)

section Operands

variable {env : Env} {merged : List Nat} {list : IndexList} {docs : Set Nat}

theorem Carries.mono {size : Nat} (carries : Carries env merged list docs) :
    Carries env (size :: merged) list docs := by
  obtain ⟨hits, isContents, formed, isDocs⟩ := carries.holds
  refine ⟨carries.plain, hits, isContents, formed, ?_⟩
  intro noneFull
  exact isDocs fun other member => noneFull other (List.mem_cons_of_mem _ member)

theorem readFromDb_of_posting {wordid : Nat} {hits : List DocHit}
    (posting : (env.posting wordid).hits = some hits)
    (fits : hits.length ≤ env.maxDocHitsSize) : readFromDb env wordid = some hits := by
  rw [readFromDb]
  cases isPosting : env.posting wordid with
  | failed => simp [isPosting, Posting.hits] at posting
  | absent => simpa [isPosting, Posting.hits] using posting
  | entries entries =>
    obtain rfl : entries = hits := by simpa [isPosting, Posting.hits] using posting
    simp only [Option.some.injEq]
    rw [Nat.sub_eq_zero_of_le fits, List.drop_zero]

theorem docids_kept (hits : List DocHit) (field : BitVec 32) :
    docids (kept hits field) = { id | ∃ hit ∈ hits, hit.id = id ∧ taken hit field } := by
  ext id
  rw [mem_docids, kept, Set.mem_ofPred_eq]
  split
  case isTrue all => simp [taken, all]
  case isFalse some =>
    simp only [List.mem_filter, taken, some, false_or]
    constructor
    · rintro ⟨hit, ⟨member, meets⟩, isId⟩
      exact ⟨hit, member, isId, meets⟩
    · rintro ⟨hit, member, isId, meets⟩
      exact ⟨hit, ⟨member, meets⟩, isId⟩

theorem operandList_carries (wordid : Nat) (field : BitVec 32) (merged : List Nat)
    (good : wordid ≠ unknownWord → ∃ hits, (env.posting wordid).hits = some hits ∧
      hits.length ≤ env.maxDocHitsSize ∧ Formed hits) :
    Carries env merged (operandList wordid field false) (operandDocs env taken wordid field) := by
  by_cases unknown : wordid = unknownWord
  · have none : operandDocs env taken wordid field = ∅ := by
      ext id
      simp [operandDocs, unknown]
    rw [none]
    simp only [unknownWord] at unknown
    refine ⟨.inr (by simp [operandList, unknown]), [], ?_, formed_nil, fun _ => docids_nil⟩
    simp [contents, operandList, unknown, IndexList.hits]
  · obtain ⟨hits, posting, fits, formed⟩ := good unknown
    have notZero : ¬ wordid = 0 := unknown
    refine ⟨.inl (by simp [operandList, notZero]), kept hits field, ?_,
      formed.sublist (kept_sublist hits field), ?_⟩
    · simp [contents, operandList, notZero, readFromDb_of_posting posting fits]
    · intro _
      rw [docids_kept]
      ext id
      simp only [operandDocs, Set.mem_ofPred_eq]
      constructor
      · rintro member
        exact ⟨unknown, hits, posting, member⟩
      · rintro ⟨_, other, otherPosting, member⟩
        obtain rfl := Option.some.inj (posting.symm.trans otherPosting)
        exact member

end Operands

/-- What a merge does to the sets of two operands and to those of many. -/
structure MergesAs (merge : Merge) (combine : Set Nat → Set Nat → Set Nat)
    (combineAll : List (Set Nat) → Set Nat) : Prop where
  eachList : ∀ env {l1 l2 : List DocHit} docHits, Formed l1 → Formed l2 →
    ∃ grown, merge.eachList env l1 l2 docHits = some grown ∧
      Merged env (combine (docids l1) (docids l2)) grown.1 grown.2
  single : ∀ docs, combineAll [docs] = docs
  pair : ∀ second first rest,
    combineAll (combine first second :: rest) = combineAll (second :: first :: rest)

theorem andMerge_mergesAs : MergesAs andMerge (· ∩ ·) interAll where
  eachList env _ _ docHits formed1 formed2 := operateAndEachList_merged env docHits formed1 formed2
  single docs := by
    ext id
    simp [interAll]
  pair second first rest := by
    ext id
    simp only [interAll, Set.mem_ofPred_eq, List.forall_mem_cons, Set.mem_inter_iff]
    tauto

theorem orMerge_mergesAs : MergesAs orMerge (· ∪ ·) unionAll where
  eachList env _ _ docHits formed1 formed2 := operateOrEachList_merged env docHits formed1 formed2
  single docs := by
    ext id
    simp [unionAll]
  pair second first rest := by
    ext id
    simp only [unionAll, Set.mem_ofPred_eq, List.exists_mem_cons_iff, Set.mem_union]
    tauto

theorem Formed.length_le {hits : List DocHit} (formed : Formed hits) {ids : Finset Nat}
    (inside : docids hits ⊆ ids) : hits.length ≤ ids.card * maxDochitsPerDocument := by
  have counted : ∀ id, (hits.map DocHit.id : Multiset Nat).count id =
      (hits.filter fun hit => hit.id = id).length := by
    intro id
    rw [Multiset.coe_count, List.count, List.countP_map, List.countP_eq_length_filter]
    rfl
  have allInside : ∀ id ∈ (hits.map DocHit.id : Multiset Nat), id ∈ ids := by
    intro id member
    obtain ⟨hit, isHit, rfl⟩ := List.mem_map.mp member
    exact inside ⟨hit, isHit, rfl⟩
  calc hits.length = (hits.map DocHit.id : Multiset Nat).card := (List.length_map _).symm
    _ = ∑ id ∈ ids, (hits.map DocHit.id : Multiset Nat).count id :=
      (Multiset.sum_count_eq_card allInside).symm
    _ ≤ ids.card • maxDochitsPerDocument :=
      Finset.sum_le_card_nsmul ids _ _ fun id _ => (counted id).trans_le (formed.few id)

def OperandsWithin (env : Env) (nodes : List QueryNode) (ids : Finset Nat) : Prop :=
  ∀ wordid field fake, QueryNode.operand wordid field fake ∈ nodes →
    operandDocs env taken wordid field ⊆ ids

theorem OperandsWithin.tail {env : Env} {node : QueryNode} {nodes : List QueryNode}
    {ids : Finset Nat} (within : OperandsWithin env (node :: nodes) ids) :
    OperandsWithin env nodes ids :=
  fun wordid field fake member => within wordid field fake (List.mem_cons_of_mem _ member)

/-- The buffers have room for all entries that documents among the ids can have. -/
def HasRoom (env : Env) (ids : Finset Nat) : Prop :=
  ids.card * maxDochitsPerDocument < env.maxDocHitsSize

section Merging

variable {env : Env} {merge : Merge} {combine : Set Nat → Set Nat → Set Nat}
  {combineAll : List (Set Nat) → Set Nat} (ids : Finset Nat)

theorem MergesAs.turn (merges : MergesAs merge combine combineAll) (search : Search)
    {l2 l1 : IndexList} {rest : List IndexList} {docs2 docs1 : Set Nat}
    (isStack : search.stack = l2 :: l1 :: rest) (carries2 : Carries env search.merged l2 docs2)
    (carries1 : Carries env search.merged l1 docs1) (numOfOperands : Nat) :
    ∃ pool list size, mergeOperands merge env (numOfOperands + 2) search =
        mergeOperands merge env (numOfOperands + 1)
          { pool := pool, stack := list :: rest, merged := size :: search.merged } ∧
      Carries env (size :: search.merged) list (combine docs1 docs2) ∧
      (HasRoom env ids → combine docs1 docs2 ⊆ ids → NoneFull env search.merged →
        NoneFull env (size :: search.merged)) := by
  obtain ⟨hits2, contents2, formed2, isDocs2⟩ := carries2.holds
  obtain ⟨hits1, contents1, formed1, isDocs1⟩ := carries1.holds
  obtain ⟨read2, pool2, reading2, as2⟩ := readIndexList_spec search.pool contents2
  obtain ⟨read1, pool1, reading1, as1⟩ := readIndexList_spec pool2 contents1
  have notFake2 : read2.listType ≠ .fakeOp := by
    rw [as2.listType_eq]
    rcases carries2.plain with plain | plain <;> simp [plain]
  have notFake1 : read1.listType ≠ .fakeOp := by
    rw [as1.listType_eq]
    rcases carries1.plain with plain | plain <;> simp [plain]
  obtain ⟨grown, isGrown, merged⟩ := merges.eachList env (getCompleteList pool1).1.1 formed1 formed2
  refine ⟨releaseList read2 (releaseList read1 (getCompleteList pool1).2),
    mergedList grown.1 (getCompleteList pool1).1.2 grown.2 (merge.field read1.field read2.field),
    grown.2, ?_, ⟨.inl rfl, _, contents_of_read (.inl rfl), merged.formed, ?_⟩, ?_⟩
  · rw [mergeOperands, isStack]
    simp only [reading2, reading1, if_neg notFake1, if_neg notFake2, as1.hits_eq, as2.hits_eq,
      isGrown]
  · intro noneFull
    have notFull := noneFull grown.2 List.mem_cons_self
    have before : NoneFull env search.merged := fun size member =>
      noneFull size (List.mem_cons_of_mem _ member)
    rw [← isDocs1 before, ← isDocs2 before]
    exact merged.complete notFull
  · intro room inside before
    rw [← isDocs1 before, ← isDocs2 before] at inside
    have few := merged.formed.length_le (merged.sound.trans inside)
    rw [Buffer.length_take] at few
    exact List.forall_mem_cons.mpr ⟨few.trans_lt room, before⟩

theorem MergesAs.operands (merges : MergesAs merge combine combineAll)
    (within : ∀ first second, combine first second ⊆ first ∪ second) {search : Search}
    {sets : List (Set Nat)} {numOfOperands : Nat}
    (carries : List.Forall₂ (Carries env search.merged) search.stack sets)
    (atLeastOne : 1 ≤ numOfOperands) (enough : numOfOperands ≤ sets.length) :
    ∃ after, mergeOperands merge env numOfOperands search = some (.success, after) ∧
      List.Forall₂ (Carries env after.merged) after.stack
        (combineAll (sets.take numOfOperands) :: sets.drop numOfOperands) ∧
      (HasRoom env ids → (∀ docs ∈ sets, docs ⊆ ids) → NoneFull env search.merged →
        NoneFull env after.merged ∧
          ∀ docs ∈ combineAll (sets.take numOfOperands) :: sets.drop numOfOperands, docs ⊆ ids) := by
  induction numOfOperands generalizing search sets with
  | zero => omega
  | succ numOfOperands induction =>
    cases numOfOperands with
    | zero =>
      refine ⟨search, by rw [mergeOperands]; simp, ?_⟩
      cases sets with
      | nil => simp at enough
      | cons docs sets =>
        rw [List.take_one, List.head?_cons, Option.toList_some, merges.single,
          List.drop_one, List.tail_cons]
        exact ⟨carries, fun _ inside before => ⟨before, inside⟩⟩
    | succ numOfOperands =>
      obtain ⟨pool, stack, merged⟩ := search
      simp only at carries
      cases carries with
      | nil => simp at enough
      | cons carries2 carries =>
      cases carries with
      | nil => simp at enough
      | @cons l1 docs1 rest sets carries1 carries =>
        rename_i l2 docs2
        obtain ⟨nextPool, list, size, turned, carriesList, stays⟩ :=
          merges.turn ids ⟨pool, l2 :: l1 :: rest, merged⟩ rfl carries2 carries1 numOfOperands
        let next : Search := ⟨nextPool, list :: rest, size :: merged⟩
        have grown : List.Forall₂ (Carries env next.merged) next.stack
            (combine docs1 docs2 :: sets) :=
          .cons carriesList (carries.imp fun _ _ carried => carried.mono)
        obtain ⟨after, ran, final⟩ := induction grown (by omega) (by simp at enough ⊢; omega)
        refine ⟨after, turned.trans ran, ?_⟩
        rw [List.take_succ_cons, merges.pair] at final
        simp only [List.take_succ_cons, List.drop_succ_cons] at final ⊢
        refine ⟨final.1, fun room inside before => ?_⟩
        obtain ⟨inside2, inside1, insideRest⟩ := by simpa using inside
        have insideBoth := (within docs1 docs2).trans (Set.union_subset inside1 inside2)
        exact final.2 room (List.forall_mem_cons.mpr ⟨insideBoth, insideRest⟩)
          (stays room insideBoth before)

end Merging

section Queries

variable {env : Env}

theorem operateAnd_eq_mergeOperands {search : Search} {sets : List (Set Nat)}
    (carries : List.Forall₂ (Carries env search.merged) search.stack sets) (numOfOperands : Nat) :
    operateAnd env numOfOperands search = mergeOperands andMerge env numOfOperands search := by
  have notNegated : ∀ {list docs}, Carries env search.merged list docs → isExclude list = false := by
    intro list docs carried
    rcases carried.plain with plain | plain <;> simp [isExclude, plain]
  rw [operateAnd]
  generalize search.stack = stack at carries
  cases carries with
  | nil => rfl
  | cons carries2 carries =>
    cases carries with
    | nil => rfl
    | cons carries1 carries =>
      simp only [notNegated carries1, notNegated carries2, Bool.or_self, Bool.false_eq_true,
        if_false]

theorem operateNodes_spec {nodes : List QueryNode} (search : Search)
    {sets final : List (Set Nat)} (good : GoodPostings env nodes)
    (carries : List.Forall₂ (Carries env search.merged) search.stack sets)
    (denotes : denote env taken nodes sets = some final) (ids : Finset Nat) :
    ∃ after, operateNodes env nodes search = some (.success, after) ∧
      List.Forall₂ (Carries env after.merged) after.stack final ∧
      (HasRoom env ids → OperandsWithin env nodes ids → (∀ docs ∈ sets, docs ⊆ ids) →
        NoneFull env search.merged → NoneFull env after.merged) := by
  induction nodes generalizing search sets with
  | nil =>
    cases denotes
    exact ⟨search, rfl, carries, fun _ _ _ before => before⟩
  | cons node nodes induction =>
    have goodRest : GoodPostings env nodes := fun wordid field fake member =>
      good wordid field fake (List.mem_cons_of_mem _ member)
    cases node with
    | operand wordid field fake =>
      cases fake with
      | true => simp [denote] at denotes
      | false =>
        simp only [denote, Bool.false_eq_true, if_false] at denotes
        rw [operateNodes]
        have carried := operandList_carries wordid field search.merged
          (good wordid field false List.mem_cons_self)
        obtain ⟨after, ran, grown, stays⟩ := induction
          { search with stack := operandList wordid field false :: search.stack } goodRest
          (.cons carried carries) denotes
        refine ⟨after, ran, grown, fun room operands inside before =>
          stays room operands.tail (List.forall_mem_cons.mpr ⟨?_, inside⟩) before⟩
        exact operands wordid field false List.mem_cons_self
    | operator operator numOfOperands =>
      simp only [denote] at denotes
      split at denotes
      case isTrue => cases denotes
      case isFalse enough =>
        rw [not_or, not_lt, not_lt] at enough
        cases operator with
        | and =>
          obtain ⟨next, ran, grown, insideNext⟩ := andMerge_mergesAs.operands ids
            (fun _ _ => Set.inter_subset_left.trans Set.subset_union_left) carries (by omega) enough.2
          simp only [operateNodes, operate, operateAnd_eq_mergeOperands carries, ran]
          obtain ⟨after, ranLater, final, stays⟩ := induction _ goodRest grown denotes
          refine ⟨after, ranLater, final, fun room operands inside before => ?_⟩
          obtain ⟨noneFull, insideSets⟩ := insideNext room inside before
          exact stays room operands.tail insideSets noneFull
        | or =>
          obtain ⟨next, ran, grown, insideNext⟩ := orMerge_mergesAs.operands ids
            (fun _ _ => subset_rfl) carries (by omega) enough.2
          simp only [operateNodes, operate, operateOr, ran]
          obtain ⟨after, ranLater, final, stays⟩ := induction _ goodRest grown denotes
          refine ⟨after, ranLater, final, fun room operands inside before => ?_⟩
          obtain ⟨noneFull, insideSets⟩ := insideNext room inside before
          exact stays room operands.tail insideSets noneFull
        | _ => cases denotes

theorem operateNodes_carries {nodes : List QueryNode} (search : Search)
    {sets final : List (Set Nat)} (good : GoodPostings env nodes)
    (carries : List.Forall₂ (Carries env search.merged) search.stack sets)
    (denotes : denote env taken nodes sets = some final) :
    ∃ after, operateNodes env nodes search = some (.success, after) ∧
      List.Forall₂ (Carries env after.merged) after.stack final := by
  obtain ⟨after, ran, grown, -⟩ := operateNodes_spec search good carries denotes ∅
  exact ⟨after, ran, grown⟩

def Contiguous (hits : List DocHit) : Prop :=
  ∀ before first between last after, hits = before ++ first :: (between ++ last :: after) →
    first.id = last.id → ∀ hit ∈ between, hit.id = first.id

theorem Formed.contiguous {hits : List DocHit} (formed : Formed hits) : Contiguous hits := by
  rintro before first between last after rfl same hit member
  have tail := (List.pairwise_append.mp formed.sorted).2.1
  have fromFirst := (List.pairwise_cons.mp tail).1 hit (List.mem_append_left _ member)
  have rest := (List.pairwise_cons.mp tail).2
  have toLast := (List.pairwise_append.mp rest).2.2 hit member last List.mem_cons_self
  omega

/-- A well-formed query succeeds with a sorted list, and unless a merge filled
its buffer the list has exactly the documents of the expression. -/
theorem doSearchOperation_exact {nodes : List QueryNode} {value : Set Nat} (pool : List Hits)
    (good : GoodPostings env nodes) (wellFormed : denote env taken nodes [] = some [value]) :
    ∃ outcome list, doSearchOperation env nodes pool = some outcome ∧
      outcome.result = some list ∧
      (list.hits.Pairwise fun first second => first.id ≤ second.id) ∧ Contiguous list.hits ∧
      (NoneFull env outcome.merged → docids list.hits = value) := by
  obtain ⟨⟨after, stack, merged⟩, ran, carries⟩ :=
    operateNodes_carries ⟨pool, [], []⟩ good .nil wellFormed
  simp only at carries
  cases carries with
  | cons carried rest =>
    cases rest
    obtain ⟨hits, isContents, formed, isDocs⟩ := carried.holds
    obtain ⟨read, finalPool, reading, readAs⟩ := readIndexList_spec after isContents
    refine ⟨⟨some read, finalPool, merged⟩, read, ?_, rfl, ?_, ?_, ?_⟩
    · simp only [doSearchOperation, ran, reading]
    · rw [readAs.hits_eq]
      exact formed.sorted
    · rw [readAs.hits_eq]
      exact formed.contiguous
    · rw [readAs.hits_eq]
      exact isDocs

def sampleEnv : Env where
  maxDocHitsSize := 8
  posting := fun wordid =>
    if wordid = 1 then .entries [⟨1, 1⟩, ⟨2, 2⟩] else .entries [⟨2, 1⟩, ⟨3, 1⟩]

theorem sampleEnv_formed : Formed [⟨1, 1⟩, ⟨2, 2⟩] ∧ Formed [⟨2, 1⟩, ⟨3, 1⟩] := by
  constructor
  · exact ⟨by decide, fun id => (List.length_filter_le _ _).trans (by decide)⟩
  · exact ⟨by decide, fun id => (List.length_filter_le _ _).trans (by decide)⟩

theorem doSearchOperation_exact_and :
    ∃ outcome list, doSearchOperation sampleEnv
        [.operand 1 3 false, .operand 2 1 false, .operator .and 2] [] = some outcome ∧
      outcome.result = some list ∧
      docids list.hits =
        interAll [operandDocs sampleEnv taken 2 1, operandDocs sampleEnv taken 1 3] := by
  have good : GoodPostings sampleEnv
      [.operand 1 3 false, .operand 2 1 false, .operator .and 2] := by
    intro wordid field fake member _
    simp only [List.mem_cons, QueryNode.operand.injEq, reduceCtorEq, List.not_mem_nil, or_false]
      at member
    rcases member with ⟨rfl, _⟩ | ⟨rfl, _⟩
    · exact ⟨_, rfl, by decide, sampleEnv_formed.1⟩
    · exact ⟨_, rfl, by decide, sampleEnv_formed.2⟩
  have merged : (doSearchOperation sampleEnv
      [.operand 1 3 false, .operand 2 1 false, .operator .and 2] []).map Outcome.merged =
      some [2] := by decide
  have denotes : denote sampleEnv taken
      [.operand 1 3 false, .operand 2 1 false, .operator .and 2] [] = some [interAll
        [operandDocs sampleEnv taken 2 1, operandDocs sampleEnv taken 1 3]] := by simp [denote]
  obtain ⟨outcome, list, ran, isList, _, _, isExact⟩ :=
    doSearchOperation_exact [] good denotes
  refine ⟨outcome, list, ran, isList, isExact ?_⟩
  rw [ran, Option.map_some, Option.some.injEq] at merged
  simp [NoneFull, merged, sampleEnv]

/-- An entry without fields is found under the mask of all fields. -/
theorem unfiltered_entry_found :
    ¬ ∀ (env : Env) (nodes : List QueryNode) (pool : List Hits) (value : Set Nat)
      (outcome : Outcome) (list : IndexList), GoodPostings env nodes →
      denote env (fun hit field => meets hit field = true) nodes [] = some [value] →
      doSearchOperation env nodes pool = some outcome → outcome.result = some list →
      NoneFull env outcome.merged → docids list.hits = value := by
  intro claim
  let env : Env := ⟨8, fun _ => .entries [⟨7, 0⟩]⟩
  let nodes : List QueryNode := [.operand 1 (BitVec.allOnes 32) false]
  have good : GoodPostings env nodes := by
    intro wordid field fake _ _
    exact ⟨_, rfl, by decide, by simp, fun id => (List.length_filter_le _ _).trans (by decide)⟩
  have ids : ((doSearchOperation env nodes []).bind Outcome.result).map
      (fun list => list.hits.map DocHit.id) = some [7] := by decide
  have noMerge : (doSearchOperation env nodes []).map Outcome.merged = some [] := by decide
  obtain ⟨list, bound, isList⟩ := Option.map_eq_some_iff.mp ids
  obtain ⟨outcome, ran, isResult⟩ := Option.bind_eq_some_iff.mp bound
  rw [ran, Option.map_some, Option.some.injEq] at noMerge
  have found := claim env nodes [] _ outcome list good rfl ran isResult (by simp [NoneFull, noMerge])
  have member : 7 ∈ docids list.hits := by
    have inIds : 7 ∈ list.hits.map DocHit.id := by simp [isList]
    obtain ⟨hit, inHits, isSeven⟩ := List.mem_map.mp inIds
    exact ⟨hit, inHits, isSeven⟩
  rw [found] at member
  obtain ⟨_, hits, posting, hit, inHits, _, wanted⟩ := member
  cases posting
  rw [List.mem_singleton] at inHits
  subst inHits
  revert wanted
  decide

end Queries

end Wisebot.Qp
