import Mathlib.Data.Set.Insert
import Mathlib.Data.List.TakeWhile
import Wisebot.Qp.Search

namespace Wisebot.Qp

open Wisebot.Lib

/-! `operate_and_each_list` and `operate_or_each_list` on sorted lists: which
documents the result has. -/

def docids (hits : List DocHit) : Set Nat := { id | ∃ hit ∈ hits, hit.id = id }

/-- The entries are sorted by document, none of which has too many. -/
structure Formed (hits : List DocHit) : Prop where
  sorted : hits.Pairwise fun first second => first.id ≤ second.id
  few : ∀ id, (hits.filter fun hit => hit.id = id).length ≤ maxDochitsPerDocument

theorem formed_nil : Formed [] := ⟨.nil, by simp⟩

theorem Formed.sublist {hits kept : List DocHit} (formed : Formed hits)
    (sublist : kept.Sublist hits) : Formed kept where
  sorted := formed.sorted.sublist sublist
  few id := ((sublist.filter _).length_le).trans (formed.few id)

@[simp] theorem docids_nil : docids [] = ∅ := by
  simp [docids]

theorem mem_docids {hits : List DocHit} {id : Nat} :
    id ∈ docids hits ↔ ∃ hit ∈ hits, hit.id = id := Iff.rfl

theorem docids_append (first second : List DocHit) :
    docids (first ++ second) = docids first ∪ docids second := by
  ext id
  simp only [mem_docids, List.mem_append, Set.mem_union, or_and_right, exists_or]

section First

variable {hit : DocHit} {hits : List DocHit}

theorem firstDocument_append :
    (firstDocument (hit :: hits)).1 ++ (firstDocument (hit :: hits)).2 = hit :: hits := by
  simp only [firstDocument, List.cons_append, List.takeWhile_append_dropWhile]

theorem firstDocument_ne_nil : (firstDocument (hit :: hits)).1 ≠ [] := by
  simp [firstDocument]

theorem firstDocument_id : ∀ other ∈ (firstDocument (hit :: hits)).1, other.id = hit.id := by
  intro other member
  simp only [firstDocument, List.mem_cons] at member
  rcases member with rfl | inside
  · rfl
  · simpa using List.mem_takeWhile_imp inside

theorem firstDocument_docids : docids (firstDocument (hit :: hits)).1 = {hit.id} := by
  ext id
  rw [mem_docids, Set.mem_singleton_iff]
  constructor
  · rintro ⟨other, member, rfl⟩
    exact firstDocument_id other member
  · rintro rfl
    exact ⟨hit, by simp [firstDocument], rfl⟩

theorem docids_cons (hit : DocHit) (hits : List DocHit) :
    docids (hit :: hits) = insert hit.id (docids (firstDocument (hit :: hits)).2) := by
  conv_lhs => rw [← firstDocument_append]
  rw [docids_append, firstDocument_docids, Set.singleton_union]

theorem firstDocument_rest_length (hit : DocHit) (hits : List DocHit) :
    (firstDocument (hit :: hits)).2.length ≤ hits.length :=
  (List.dropWhile_sublist _).length_le

theorem Formed.rest (formed : Formed (hit :: hits)) : Formed (firstDocument (hit :: hits)).2 :=
  formed.sublist ((List.dropWhile_sublist _).trans (List.sublist_cons_self _ _))

theorem Formed.first_length (formed : Formed (hit :: hits)) :
    (firstDocument (hit :: hits)).1.length ≤ maxDochitsPerDocument := by
  have all : (firstDocument (hit :: hits)).1.filter (fun other => other.id = hit.id) =
      (firstDocument (hit :: hits)).1 := by
    rw [List.filter_eq_self]
    intro other member
    simpa using firstDocument_id other member
  rw [← all]
  have sublist : (firstDocument (hit :: hits)).1.Sublist (hit :: hits) := by
    conv_rhs => rw [← firstDocument_append]
    exact List.sublist_append_left _ _
  exact ((sublist.filter _).length_le).trans (formed.few hit.id)

theorem Formed.rest_greater (formed : Formed (hit :: hits)) :
    ∀ id ∈ docids (firstDocument (hit :: hits)).2, hit.id < id := by
  rintro id ⟨other, member, rfl⟩
  have sorted := List.pairwise_cons.mp formed.sorted
  simp only [firstDocument] at member
  cases rest : hits.dropWhile fun other => other.id = hit.id with
  | nil =>
    rw [rest] at member
    cases member
  | cons first behind =>
    have different : first.id ≠ hit.id := by
      have nonempty : hits.dropWhile (fun other => other.id = hit.id) ≠ [] := by simp [rest]
      have head := List.head_dropWhile_not _ nonempty
      simp only [rest, List.head_cons, decide_eq_false_iff_not] at head
      exact head
    have inHits : ∀ item ∈ first :: behind, item ∈ hits := fun item inside =>
      (List.dropWhile_sublist _).subset (rest ▸ inside)
    have greater : hit.id < first.id :=
      lt_of_le_of_ne (sorted.1 first (inHits first List.mem_cons_self)) (Ne.symm different)
    rw [rest] at member
    have restSorted : (first :: behind).Pairwise fun first second => first.id ≤ second.id :=
      rest ▸ sorted.2.sublist (List.dropWhile_sublist _)
    rcases List.mem_cons.mp member with rfl | later
    · exact greater
    · exact greater.trans_le ((List.pairwise_cons.mp restSorted).1 other later)

theorem Formed.head_le (formed : Formed (hit :: hits)) : ∀ id ∈ docids (hit :: hits), hit.id ≤ id := by
  intro id member
  rw [docids_cons] at member
  rcases member with rfl | later
  · exact le_rfl
  · exact (formed.rest_greater id later).le

end First

def Result.hits (result : Result) : List DocHit := Buffer.take result.1 result.2

theorem Result.length_hits (result : Result) : (Result.hits result).length = result.2 :=
  Buffer.length_take

/-- A result grown by the entries `out`, all of documents that are wanted. Unless
the buffer is full, no wanted document is missing. -/
structure Extended (env : Env) (wanted : Set Nat) (result grown : Result)
    (out : List DocHit) : Prop where
  hits : Result.hits grown = Result.hits result ++ out
  sorted : out.Pairwise fun first second => first.id ≤ second.id
  few : ∀ id, (out.filter fun hit => hit.id = id).length ≤ 2 * maxResultDochitsPerDoc
  sound : docids out ⊆ wanted
  complete : grown.2 < env.maxDocHitsSize → wanted ⊆ docids out

section Writing

variable {env : Env} {result middle grown : Result} {wanted : Set Nat} {out : List DocHit}

theorem Extended.count (extended : Extended env wanted result grown out) :
    grown.2 = result.2 + out.length := by
  have length := congrArg List.length extended.hits
  rwa [List.length_append, Result.length_hits, Result.length_hits] at length

theorem Extended.refl (env : Env) (result : Result) : Extended env ∅ result result [] :=
  ⟨by simp, .nil, by simp, by simp, by simp⟩

structure OneDocument (env : Env) (id : Nat) (result middle : Result) (out : List DocHit) :
    Prop where
  hits : Result.hits middle = Result.hits result ++ out
  same : ∀ hit ∈ out, hit.id = id
  few : out.length ≤ 2 * maxResultDochitsPerDoc
  written : result.2 < env.maxDocHitsSize → out ≠ []

theorem OneDocument.count {id : Nat} (document : OneDocument env id result middle out) :
    middle.2 = result.2 + out.length := by
  have length := congrArg List.length document.hits
  rwa [List.length_append, Result.length_hits, Result.length_hits] at length

theorem sorted_of_same {id : Nat} (same : ∀ hit ∈ out, hit.id = id) :
    out.Pairwise fun first second => first.id ≤ second.id := by
  refine List.pairwise_of_forall_mem_list ?_
  intro first firstMember second secondMember
  rw [same first firstMember, same second secondMember]

theorem OneDocument.stop {id : Nat} (document : OneDocument env id result middle out)
    (isWanted : id ∈ wanted) (full : env.maxDocHitsSize ≤ middle.2) :
    Extended env wanted result middle out where
  hits := document.hits
  sorted := sorted_of_same document.same
  few other := (List.length_filter_le _ _).trans document.few
  sound := by
    rintro other ⟨hit, member, rfl⟩
    rw [document.same hit member]
    exact isWanted
  complete notFull := absurd full (Nat.not_le.mpr notFull)

theorem OneDocument.then {id : Nat} {later : List DocHit}
    (document : OneDocument env id result middle out)
    (extended : Extended env wanted middle grown later) (greater : ∀ other ∈ wanted, id < other) :
    Extended env (insert id wanted) result grown (out ++ later) := by
  have laterGreater : ∀ hit ∈ later, id < hit.id := fun hit member =>
    greater hit.id (extended.sound ⟨hit, member, rfl⟩)
  refine ⟨by rw [extended.hits, document.hits, List.append_assoc], ?_, ?_, ?_, ?_⟩
  · refine List.pairwise_append.mpr ⟨sorted_of_same document.same, extended.sorted, ?_⟩
    intro first firstMember second secondMember
    rw [document.same first firstMember]
    exact (laterGreater second secondMember).le
  · intro other
    rw [List.filter_append, List.length_append]
    by_cases isId : other = id
    · have none : later.filter (fun hit => hit.id = other) = [] := by
        rw [List.filter_eq_nil_iff]
        intro hit member
        have := laterGreater hit member
        simp only [decide_eq_true_eq]
        omega
      rw [none, List.length_nil, Nat.add_zero]
      exact (List.length_filter_le _ _).trans document.few
    · have none : out.filter (fun hit => hit.id = other) = [] := by
        rw [List.filter_eq_nil_iff]
        intro hit member
        have := document.same hit member
        simp only [decide_eq_true_eq]
        omega
      rw [none, List.length_nil, Nat.zero_add]
      exact extended.few other
  · rintro other ⟨hit, member, rfl⟩
    rcases List.mem_append.mp member with inFirst | inLater
    · exact Set.mem_insert_iff.mpr (.inl (document.same hit inFirst))
    · exact Set.mem_insert_of_mem _ (extended.sound ⟨hit, inLater, rfl⟩)
  · intro notFull
    have grew := extended.count
    have began := document.count
    rw [docids_append]
    rintro other (rfl | isWanted)
    · obtain ⟨hit, member⟩ := List.exists_mem_of_ne_nil _ (document.written (by omega))
      exact .inl ⟨hit, member, document.same hit member⟩
    · exact .inr (extended.complete notFull isWanted)

theorem appendDocument_spec (env : Env) (result : Result) {document : List DocHit}
    (short : document.length ≤ maxDochitsPerDocument) :
    ∃ middle, appendDocument env result document = some middle ∧
      Result.hits middle = Result.hits result ++
        document.take (min maxResultDochitsPerDoc (env.maxDocHitsSize - result.2)) := by
  refine ⟨_, by rw [appendDocument, if_neg (Nat.not_lt.mpr short)], ?_⟩
  let room := min maxResultDochitsPerDoc (env.maxDocHitsSize - result.2)
  have length : (document.take room).length = min document.length room := by
    rw [List.length_take, Nat.min_comm]
  have written := Buffer.take_write (initResultDocument result.1 result.2 room) result.2
    (document.take room)
  rw [length] at written
  have kept : (initResultDocument result.1 result.2 room).take result.2 =
      Buffer.take result.1 result.2 := by
    apply Buffer.take_congr
    intro index bound
    rw [initResultDocument, if_neg (by omega)]
  rw [kept] at written
  exact written

theorem appendDocument_one (env : Env) (result : Result) {id : Nat} {document : List DocHit}
    (short : document.length ≤ maxDochitsPerDocument) (nonempty : document ≠ [])
    (same : ∀ hit ∈ document, hit.id = id) :
    ∃ middle out, appendDocument env result document = some middle ∧
      OneDocument env id result middle out ∧ out.length ≤ maxResultDochitsPerDoc := by
  obtain ⟨middle, appended, hits⟩ := appendDocument_spec env result short
  refine ⟨middle, _, appended, ⟨hits, ?_, ?_, ?_⟩, ?_⟩
  · exact fun hit member => same hit (List.mem_of_mem_take member)
  · rw [List.length_take]
    omega
  · intro room
    have pos : 0 < document.length := List.length_pos_iff.mpr nonempty
    rw [← List.length_pos_iff, List.length_take]
    simp only [maxResultDochitsPerDoc]
    omega
  · rw [List.length_take]
    omega

theorem appendBoth_one (env : Env) (result : Result) {id : Nat} {first second : List DocHit}
    (firstShort : first.length ≤ maxDochitsPerDocument)
    (secondShort : second.length ≤ maxDochitsPerDocument)
    (nonempty : first ≠ []) (firstSame : ∀ hit ∈ first, hit.id = id)
    (secondSame : ∀ hit ∈ second, hit.id = id) :
    ∃ middle out, appendBoth env result first second = some middle ∧
      OneDocument env id result middle out := by
  obtain ⟨middle, out, appended, document, few⟩ :=
    appendDocument_one env result firstShort nonempty firstSame
  obtain ⟨last, appendedLast, hits⟩ := appendDocument_spec env middle secondShort
  refine ⟨last, out ++ second.take (min maxResultDochitsPerDoc (env.maxDocHitsSize - middle.2)),
    by simp only [appendBoth, appended, appendedLast], ⟨?_, ?_, ?_, ?_⟩⟩
  · rw [hits, document.hits, List.append_assoc]
  · intro hit member
    rcases List.mem_append.mp member with inFirst | inSecond
    · exact document.same hit inFirst
    · exact secondSame hit (List.mem_of_mem_take inSecond)
  · rw [List.length_append, List.length_take]
    omega
  · intro room isNil
    exact document.written room (List.append_eq_nil_iff.mp isNil).1

end Writing

section Loops

variable {env : Env}

theorem OneDocument.turn {id : Nat} {result middle : Result} {written : List DocHit}
    {wanted : Set Nat} (document : OneDocument env id result middle written)
    (greater : ∀ other ∈ wanted, id < other) {continued : Option Result}
    (rest : ∃ grown out, continued = some grown ∧ Extended env wanted middle grown out) :
    ∃ grown out, (if env.maxDocHitsSize ≤ middle.2 then some middle else continued) = some grown ∧
      Extended env (insert id wanted) result grown out := by
  by_cases full : env.maxDocHitsSize ≤ middle.2
  · exact ⟨middle, written, if_pos full, document.stop (Set.mem_insert _ _) full⟩
  · obtain ⟨grown, out, isGrown, extended⟩ := rest
    exact ⟨grown, written ++ out, by rw [if_neg full, isGrown], document.then extended greater⟩

theorem operateAndFrom_extended (env : Env) {fuel : Nat} {l1 l2 : List DocHit} (result : Result)
    (formed1 : Formed l1) (formed2 : Formed l2) (enough : l1.length + l2.length < fuel) :
    ∃ grown out, operateAndFrom env fuel l1 l2 result = some grown ∧
      Extended env (docids l1 ∩ docids l2) result grown out := by
  induction fuel generalizing l1 l2 result with
  | zero => omega
  | succ fuel induction =>
    cases l1 with
    | nil => exact ⟨result, [], by rw [operateAndFrom]; simp, by simpa using .refl env result⟩
    | cons hit1 hits1 =>
    cases l2 with
    | nil => exact ⟨result, [], by rw [operateAndFrom]; simp, by simpa using .refl env result⟩
    | cons hit2 hits2 =>
      have shorter1 := firstDocument_rest_length hit1 hits1
      have shorter2 := firstDocument_rest_length hit2 hits2
      simp only [List.length_cons] at enough
      simp only [operateAndFrom]
      split
      case isTrue less =>
        obtain ⟨grown, out, isGrown, extended⟩ :=
          induction result formed1.rest formed2 (by simp only [List.length_cons]; omega)
        refine ⟨grown, out, isGrown, ?_⟩
        have skipped : hit1.id ∉ docids (hit2 :: hits2) := fun member =>
          absurd (formed2.head_le _ member) (Nat.not_le.mpr less)
        rw [docids_cons, Set.insert_inter_of_notMem skipped]
        exact extended
      case isFalse notLess =>
        split
        case isTrue greater =>
          obtain ⟨grown, out, isGrown, extended⟩ :=
            induction result formed1 formed2.rest (by simp only [List.length_cons]; omega)
          refine ⟨grown, out, isGrown, ?_⟩
          have skipped : hit2.id ∉ docids (hit1 :: hits1) := fun member =>
            absurd (formed1.head_le _ member) (Nat.not_le.mpr greater)
          rw [docids_cons hit2 hits2, Set.inter_insert_of_notMem skipped]
          exact extended
        case isFalse notGreater =>
          have same : hit2.id = hit1.id := by omega
          obtain ⟨middle, written, appended, document⟩ :=
            appendBoth_one env result formed1.first_length formed2.first_length
              firstDocument_ne_nil firstDocument_id
              (fun other member => (firstDocument_id other member).trans same)
          rw [appended]
          have rest := induction middle formed1.rest formed2.rest (by omega)
          rw [docids_cons hit1 hits1, docids_cons hit2 hits2, same,
            ← Set.insert_inter_distrib]
          refine document.turn ?_ rest
          rintro other ⟨inFirst, _⟩
          exact formed1.rest_greater other inFirst

theorem operateOrFrom_extended (env : Env) {fuel : Nat} {l1 l2 : List DocHit} (result : Result)
    (formed1 : Formed l1) (formed2 : Formed l2) (enough : l1.length + l2.length < fuel) :
    ∃ grown out, operateOrFrom env fuel l1 l2 result = some grown ∧
      Extended env (docids l1 ∪ docids l2) result grown out := by
  induction fuel generalizing l1 l2 result with
  | zero => omega
  | succ fuel induction =>
    cases l1 with
    | nil =>
      cases l2 with
      | nil => exact ⟨result, [], by rw [operateOrFrom], by simpa using .refl env result⟩
      | cons hit2 hits2 =>
        have shorter := firstDocument_rest_length hit2 hits2
        simp only [List.length_cons] at enough
        obtain ⟨middle, written, appended, document, _⟩ :=
          appendDocument_one env result formed2.first_length firstDocument_ne_nil
            firstDocument_id
        have rest := induction middle formed_nil formed2.rest
          (by simp only [List.length_nil] at enough ⊢; omega)
        rw [docids_nil, Set.empty_union] at rest
        simp only [operateOrFrom, appended]
        rw [docids_nil, Set.empty_union, docids_cons]
        exact document.turn formed2.rest_greater rest
    | cons hit1 hits1 =>
      have shorter1 := firstDocument_rest_length hit1 hits1
      cases l2 with
      | nil =>
        simp only [List.length_cons] at enough
        obtain ⟨middle, written, appended, document, _⟩ :=
          appendDocument_one env result formed1.first_length firstDocument_ne_nil
            firstDocument_id
        have rest := induction middle formed1.rest formed_nil
          (by simp only [List.length_nil] at enough ⊢; omega)
        rw [docids_nil, Set.union_empty] at rest
        simp only [operateOrFrom, appended]
        rw [docids_nil, Set.union_empty, docids_cons]
        exact document.turn formed1.rest_greater rest
      | cons hit2 hits2 =>
        have shorter2 := firstDocument_rest_length hit2 hits2
        simp only [List.length_cons] at enough
        simp only [operateOrFrom]
        split
        case isTrue less =>
          obtain ⟨middle, written, appended, document, _⟩ :=
            appendDocument_one env result formed1.first_length firstDocument_ne_nil
              firstDocument_id
          rw [appended]
          have rest := induction middle formed1.rest formed2
            (by simp only [List.length_cons]; omega)
          rw [docids_cons, Set.insert_union]
          refine document.turn ?_ rest
          rintro other (inFirst | inSecond)
          · exact formed1.rest_greater other inFirst
          · exact less.trans_le (formed2.head_le other inSecond)
        case isFalse notLess =>
          split
          case isTrue greater =>
            obtain ⟨middle, written, appended, document, _⟩ :=
              appendDocument_one env result formed2.first_length firstDocument_ne_nil
                firstDocument_id
            rw [appended]
            have rest := induction middle formed1 formed2.rest
              (by simp only [List.length_cons]; omega)
            rw [docids_cons hit2 hits2, Set.union_insert]
            refine document.turn ?_ rest
            rintro other (inFirst | inSecond)
            · exact greater.trans_le (formed1.head_le other inFirst)
            · exact formed2.rest_greater other inSecond
          case isFalse notGreater =>
            have same : hit2.id = hit1.id := by omega
            obtain ⟨middle, written, appended, document⟩ :=
              appendBoth_one env result formed1.first_length formed2.first_length
                firstDocument_ne_nil firstDocument_id
                (fun other member => (firstDocument_id other member).trans same)
            rw [appended]
            have rest := induction middle formed1.rest formed2.rest (by omega)
            rw [docids_cons hit1 hits1, docids_cons hit2 hits2, same,
              ← Set.insert_union_distrib]
            refine document.turn ?_ rest
            rintro other (inFirst | inSecond)
            · exact formed1.rest_greater other inFirst
            · exact same ▸ formed2.rest_greater other inSecond

structure Merged (env : Env) (wanted : Set Nat) (docHits : Hits) (count : Nat) : Prop where
  formed : Formed (docHits.take count)
  sound : docids (docHits.take count) ⊆ wanted
  complete : count < env.maxDocHitsSize → docids (docHits.take count) = wanted

theorem Extended.merged {wanted : Set Nat} {docHits : Hits} {grown : Result} {out : List DocHit}
    (extended : Extended env wanted (docHits, 0) grown out) :
    Merged env wanted grown.1 grown.2 := by
  have hits : Buffer.take grown.1 grown.2 = out := extended.hits
  refine ⟨?_, ?_, ?_⟩
  · rw [hits]
    exact ⟨extended.sorted, fun id => (extended.few id).trans (by decide)⟩
  · rw [hits]
    exact extended.sound
  · intro notFull
    rw [hits]
    exact Set.Subset.antisymm extended.sound (extended.complete notFull)

theorem operateAndEachList_merged (env : Env) {l1 l2 : List DocHit} (docHits : Hits) (formed1 : Formed l1)
    (formed2 : Formed l2) :
    ∃ grown, operateAndEachList env l1 l2 docHits = some grown ∧
      Merged env (docids l1 ∩ docids l2) grown.1 grown.2 := by
  obtain ⟨grown, out, isGrown, extended⟩ :=
    operateAndFrom_extended env (docHits, 0) formed1 formed2 (Nat.lt_succ_self _)
  exact ⟨grown, isGrown, extended.merged⟩

theorem operateOrEachList_merged (env : Env) {l1 l2 : List DocHit} (docHits : Hits) (formed1 : Formed l1)
    (formed2 : Formed l2) :
    ∃ grown, operateOrEachList env l1 l2 docHits = some grown ∧
      Merged env (docids l1 ∪ docids l2) grown.1 grown.2 := by
  obtain ⟨grown, out, isGrown, extended⟩ :=
    operateOrFrom_extended env (docHits, 0) formed1 formed2 (Nat.lt_succ_self _)
  exact ⟨grown, isGrown, extended.merged⟩

end Loops

end Wisebot.Qp
