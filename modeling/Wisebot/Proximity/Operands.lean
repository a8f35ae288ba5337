import Mathlib.Data.List.Forall2
import Wisebot.Proximity.Merging

namespace Wisebot.Proximity

open Lib
open Indexer (StandardHit Build Fault)
open Qp (IndexListType Ret maxResultDochitsPerDoc maxDochitsPerDocument)

/-! The operands of a node, combined from the last one to the first. -/

def commonField (words : List IndexList) : BitVec 32 :=
  words.foldr (fun word mask => word.field &&& mask) (BitVec.allOnes 32)

/-- A hit that the words leave in a document, one after the other. -/
def Reached (operation : Operation) (close : Nat → Nat → Prop) (id : Nat) :
    List IndexList → StandardHit → Prop
  | [], _ => False
  | [word], hit => hit ∈ documentHits word.entries id
  | word :: words, hit =>
    ∃ hit1 ∈ documentHits word.entries id, ∃ hit2, Reached operation close id words hit2 ∧
      hit1.field = hit2.field ∧ close hit1.position hit2.position ∧
      operation.kept hit1 hit2 = hit

def Operation.KeepsOne (operation : Operation) : Prop :=
  ∀ hit1 hit2 : StandardHit, operation.kept hit1 hit2 = hit1 ∨ operation.kept hit1 hit2 = hit2

theorem readIndexList_read {env : Env} {operand list : IndexList}
    (reading : readIndexList env operand = some list) : readIndexList env list = some list := by
  rw [readIndexList] at reading
  split at reading
  case isTrue isRead =>
    cases reading
    rw [readIndexList, if_pos isRead]
  case isFalse =>
    cases entries : readFromDb env operand.wordid with
    | none =>
      rw [entries] at reading
      cases reading
    | some dochits =>
      rw [entries] at reading
      simp only at reading
      split at reading
      all_goals
        cases reading
        rw [readIndexList, if_pos (.inl rfl)]

variable {env : Env} {operation : Operation} {dist : Nat} {close : Nat → Nat → Prop}

structure Carries (env : Env) (operation : Operation) (close : Nat → Nat → Prop)
    (words : List IndexList) (list : IndexList) : Prop where
  some : words ≠ []
  field_eq : list.field = commonField words
  formed : Formed env.build list.entries
  real : list.listType ≠ .fakeOp
  hits : ∀ id hit, list.field.getLsbD hit.field.toNat = true →
    (hit ∈ documentHits list.entries id ↔ Reached operation close id words hit)
  docids : 2 ≤ words.length → ∀ id, (∃ entry ∈ list.entries, entry.dochit.id = id) ↔
    ∃ hit, list.field.getLsbD hit.field.toNat = true ∧ Reached operation close id words hit

theorem Carries.single {list : IndexList} (formed : Formed env.build list.entries)
    (real : list.listType ≠ .fakeOp) : Carries env operation close [list] list where
  some := by simp
  field_eq := BitVec.and_allOnes.symm
  formed := formed
  real := real
  hits _ _ _ := Iff.rfl
  docids several := by simp at several

theorem exists_entry_iff {build : Build} {entries : List Entry}
    (sound : ∀ entry ∈ entries, Sound build entry.dochit) (id : Nat) :
    (∃ entry ∈ entries, entry.dochit.id = id) ↔ ∃ hit, hit ∈ documentHits entries id := by
  constructor
  · rintro ⟨entry, member, same⟩
    have inside : entry ∈ entries.filter fun entry => entry.dochit.id = id :=
      List.mem_filter.mpr ⟨member, by simpa using same⟩
    exact List.exists_mem_of_ne_nil _ (hitsOf_ne_nil
      (fun entry member => sound entry (List.mem_of_mem_filter member))
      (List.ne_nil_of_mem inside))
  · rintro ⟨hit, member⟩
    obtain ⟨entry, inside, _⟩ := List.mem_flatMap.mp member
    obtain ⟨present, same⟩ := List.mem_filter.mp inside
    exact ⟨entry, present, by simpa using same⟩

theorem reached_cons {words : List IndexList} (some : words ≠ []) {id : Nat} {word : IndexList}
    {hit : StandardHit} :
    Reached operation close id (word :: words) hit ↔
      ∃ hit1 ∈ documentHits word.entries id, ∃ hit2, Reached operation close id words hit2 ∧
        hit1.field = hit2.field ∧ close hit1.position hit2.position ∧
        operation.kept hit1 hit2 = hit := by
  cases words with
  | nil => exact absurd rfl some
  | cons => exact Iff.rfl

section Step

variable (finds : operation.Finds dist close)
  {words : List IndexList} {l1 l2 : IndexList} {out : List Entry}
  (formed1 : Formed env.build l1.entries) (formed2 : Formed env.build l2.entries)
  (joined : Joined env operation dist close (l1.field &&& l2.field) l1.entries l2.entries out)

include finds formed1 formed2 joined

/-- The hits of a document in the result, from close pairs of its hits in the two lists. -/
theorem Joined.mem_iff {id : Nat} {hit : StandardHit} :
    hit ∈ documentHits out id ↔
      Joins (l1.field &&& l2.field) close (documentHits l1.entries id)
        (documentHits l2.entries id) ∧
      ∃ hit1 ∈ documentHits l1.entries id, ∃ hit2 ∈ documentHits l2.entries id,
        hit1.field = hit2.field ∧ close hit1.position hit2.position ∧
        operation.kept hit1 hit2 = hit := by
  by_cases joins : Joins (l1.field &&& l2.field) close (documentHits l1.entries id)
      (documentHits l2.entries id)
  · rw [joined.joined id joins, mem_pairs, and_iff_right joins]
    refine exists_congr fun hit1 => and_congr_right fun member1 => exists_congr fun hit2 =>
      and_congr_right fun member2 => ?_
    rw [finds.isClose_iff hit1 hit2 (formed1.known hit1 (mem_documentHits member1))
      (formed2.known hit2 (mem_documentHits member2)), and_assoc]
  · rw [joined.others id joins]
    exact ⟨fun member => absurd member List.not_mem_nil, fun both => absurd both.1 joins⟩

theorem Joined.formed (keeps : operation.KeepsOne) : Formed env.build out where
  sorted := joined.sorted
  sound := joined.sound
  few id := (joined.few id).trans (by decide)
  known := by
    intro hit member
    obtain ⟨entry, inside, counted⟩ := List.mem_flatMap.mp member
    have found : hit ∈ documentHits out entry.dochit.id :=
      List.mem_flatMap.mpr ⟨entry, List.mem_filter.mpr ⟨inside, by simp⟩, counted⟩
    obtain ⟨_, hit1, member1, hit2, member2, _, _, kept⟩ :=
      (Joined.mem_iff finds formed1 formed2 joined).mp found
    rcases keeps hit1 hit2 with first | second
    · rw [← kept, first]
      exact formed1.known hit1 (mem_documentHits member1)
    · rw [← kept, second]
      exact formed2.known hit2 (mem_documentHits member2)

end Step

theorem Carries.cons (finds : operation.Finds dist close) (keeps : operation.KeepsOne)
    {words : List IndexList} {l1 l2 list : IndexList}
    (carries : Carries env operation close words l2) (formed : Formed env.build l1.entries)
    (joined : Joined env operation dist close (l1.field &&& l2.field) l1.entries l2.entries
      list.entries)
    (field_eq : list.field = l1.field &&& l2.field) (real : list.listType ≠ .fakeOp) :
    Carries env operation close (l1 :: words) list := by
  have mem_iff : ∀ id hit, _ :=
    fun id hit => @Joined.mem_iff _ _ _ _ finds _ _ _ formed carries.formed joined id hit
  have keptField : ∀ hit1 hit2 : StandardHit, hit1.field = hit2.field →
      (operation.kept hit1 hit2).field = hit1.field := by
    intro hit1 hit2 same
    rcases keeps hit1 hit2 with first | second
    · rw [first]
    · rw [second, same]
  have masks : ∀ field : UInt8, list.field.getLsbD field.toNat = true ↔
      l1.field.getLsbD field.toNat = true ∧ l2.field.getLsbD field.toNat = true := by
    intro field
    rw [field_eq, BitVec.getLsbD_and, Bool.and_eq_true]
  have hits : ∀ id hit, list.field.getLsbD hit.field.toNat = true →
      (hit ∈ documentHits list.entries id ↔ Reached operation close id (l1 :: words) hit) := by
    intro id hit masked
    rw [mem_iff, reached_cons carries.some]
    constructor
    · rintro ⟨_, hit1, member1, hit2, member2, same, near, rfl⟩
      rw [keptField hit1 hit2 same, same] at masked
      exact ⟨hit1, member1, hit2, (carries.hits id hit2 ((masks _).mp masked).2).mp member2, same,
        near, rfl⟩
    · rintro ⟨hit1, member1, hit2, reached, same, near, rfl⟩
      rw [keptField hit1 hit2 same] at masked
      have member2 := (carries.hits id hit2 ((masks _).mp (same ▸ masked)).2).mpr reached
      exact ⟨⟨hit1, member1, hit2, member2, field_eq ▸ masked, same, near⟩, hit1, member1, hit2,
        member2, same, near, rfl⟩
  refine ⟨by simp, ?_, Joined.formed finds formed carries.formed joined keeps, real, hits, ?_⟩
  · rw [field_eq, carries.field_eq]
    rfl
  · intro _ id
    rw [exists_entry_iff joined.sound]
    constructor
    · rintro ⟨hit, member⟩
      obtain ⟨⟨hit1, member1, hit2, member2, masked, same, near⟩, _⟩ := (mem_iff id hit).mp member
      rw [← field_eq, ← keptField hit1 hit2 same] at masked
      refine ⟨operation.kept hit1 hit2, masked, (hits id _ masked).mp ?_⟩
      rw [keptField hit1 hit2 same, field_eq] at masked
      exact (mem_iff id _).mpr ⟨⟨hit1, member1, hit2, member2, masked, same, near⟩, hit1, member1,
        hit2, member2, same, near, rfl⟩
    · rintro ⟨hit, masked, reached⟩
      exact ⟨hit, (hits id hit masked).mpr reached⟩

def IndexList.isReal (list : IndexList) : Bool := list.listType ≠ .fakeOp

/-- No turn of the loop finds more pairs in a document than its entries in a result can hold,
and no result reaches its size; the lists are in the order in which they are taken. -/
def StepsFit (env : Env) (operation : Operation) (dist : Nat) (close : Nat → Nat → Prop) :
    IndexList → List IndexList → Prop
  | _, [] => True
  | l2, l1 :: before =>
    (l1.isReal = true → l2.isReal = true →
      FewPairs env operation dist close (l1.field &&& l2.field) l1.entries l2.entries) ∧
    ∀ results list next, combine env operation dist results l1 l2 = .ok (list, next) →
      (l1.isReal = true → l2.isReal = true → list.entries.length < env.maxDocHitsSize) ∧
      StepsFit env operation dist close list before

/-- What the loop has gathered of the words that are not fake. -/
def Gathered (env : Env) (operation : Operation) (close : Nat → Nat → Prop)
    (words : List IndexList) (list : IndexList) : Prop :=
  words = [] ∧ list.isReal = false ∨ Carries env operation close words list

theorem combine_gathered (finds : operation.Finds dist close) (keeps : operation.KeepsOne)
    (positive : 0 < env.maxDocHitsSize) {words : List IndexList} {l1 l2 : IndexList}
    (gathered : Gathered env operation close words l2)
    (searchable : l1.isReal = true → Formed env.build l1.entries) {before : List IndexList}
    (fits : StepsFit env operation dist close l2 (l1 :: before)) (read1 : readIndexList env l1 = some l1)
    (read2 : readIndexList env l2 = some l2) (results : Nat) :
    ∃ list next, combine env operation dist results l1 l2 = .ok (list, next) ∧
      readIndexList env list = some list ∧
      Gathered env operation close ([l1].filter IndexList.isReal ++ words) list ∧
      StepsFit env operation dist close list before := by
  obtain ⟨few, sizes⟩ := fits
  by_cases fake1 : l1.listType = .fakeOp
  · have combining : combine env operation dist results l1 l2 = .ok (l2, results) := if_pos fake1
    have none : [l1].filter IndexList.isReal = [] := by simp [IndexList.isReal, fake1]
    rw [none]
    exact ⟨l2, results, combining, read2, gathered, (sizes _ _ _ combining).2⟩
  · have real1 : l1.isReal = true := by simpa [IndexList.isReal] using fake1
    have one : [l1].filter IndexList.isReal = [l1] := by simp [real1]
    rw [one]
    by_cases fake2 : l2.listType = .fakeOp
    · have combining : combine env operation dist results l1 l2 = .ok (l1, results) := by
        rw [combine, if_neg fake1, if_pos fake2]
      have none : words = [] := gathered.elim And.left fun carries => absurd fake2 carries.real
      subst none
      exact ⟨l1, results, combining, read1, .inr (Carries.single (searchable real1) fake1),
        (sizes _ _ _ combining).2⟩
    · have real2 : l2.isReal = true := by simpa [IndexList.isReal] using fake2
      have carries := gathered.resolve_left fun none => by simp [real2] at none
      obtain ⟨out, merging, outcome⟩ := eachListFrom_spec finds (env.buffer_room results)
        (searchable real1) carries.formed (few real1 real2) (Nat.lt_succ_self _)
        (show ([] : List Entry).length < env.maxDocHitsSize from positive)
      rw [List.nil_append] at merging outcome
      have combining : combine env operation dist results l1 l2 = .ok ({
          wordid := 0
          field := l1.field &&& l2.field
          listType := .normal
          isCompleteList := true
          entries := out }, results + 1) := by
        rw [combine, if_neg fake1, if_neg fake2, operateEachList, merging]
        rfl
      obtain ⟨smaller, fits⟩ := sizes _ _ _ combining
      have joined := outcome.resolve_right (Nat.ne_of_lt (smaller real1 real2))
      refine ⟨_, _, combining, ?_, .inr (Carries.cons finds keeps carries (searchable real1) joined
        rfl (by simp)), fits⟩
      rw [readIndexList, if_pos (.inl rfl)]

theorem combineOperands_gathered (finds : operation.Finds dist close)
    (keeps : operation.KeepsOne) (positive : 0 < env.maxDocHitsSize) {words : List IndexList}
    {top list : IndexList} (reading : readIndexList env top = some list)
    (gathered : Gathered env operation close words list) {operands lists : List IndexList}
    (readings : List.Forall₂ (fun operand list => readIndexList env operand = some list)
      operands lists)
    (searchable : ∀ list ∈ lists, list.isReal = true → Formed env.build list.entries)
    (fits : StepsFit env operation dist close list lists) (rest : List IndexList)
    (results : Nat) :
    ∃ final read next,
      combineOperands env operation dist (operands.length + 1)
        ⟨top :: (operands ++ rest), results⟩ = .ok (.success, ⟨final :: rest, next⟩) ∧
      readIndexList env final = some read ∧ (operands ≠ [] ∨ top = list → final = read) ∧
      Gathered env operation close (lists.reverse.filter IndexList.isReal ++ words) read := by
  induction readings generalizing words top list results with
  | nil => exact ⟨top, list, results, rfl, reading, fun same => same.elim (absurd rfl) id, gathered⟩
  | @cons operand l1 operands lists reading1 readings induction =>
    obtain ⟨next, count, combining, isRead, nextGathered, nextFits⟩ :=
      combine_gathered finds keeps positive gathered (searchable l1 List.mem_cons_self) fits
        (readIndexList_read reading1) (readIndexList_read reading) results
    obtain ⟨final, read, last, running, finalRead, same, finalGathered⟩ :=
      induction isRead nextGathered
        (fun list member => searchable list (List.mem_cons_of_mem l1 member)) nextFits count
    refine ⟨final, read, last, ?_, finalRead, fun _ => same (.inr rfl), ?_⟩
    · rw [List.length_cons, List.cons_append, combineOperands]
      simp only [reading, reading1, bind, Except.bind, combining]
      exact running
    · rw [List.reverse_cons, List.filter_append, List.append_assoc]
      exact finalGathered

end Wisebot.Proximity
