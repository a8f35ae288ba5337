import Wisebot.Indexer.Documents

namespace Wisebot.Indexer

open Lib

/-! The entries that `fill_dochit` packs, and the runs that `save_to_indexdb`
appends. -/

section Packing

variable (build : Build) (overshift : UInt8 → BitVec 32)

def fieldMask (hits : List StandardHit) : BitVec 32 :=
  hits.foldl (fun mask hit => mask ||| fieldBit overshift hit.field) 0

structure Entry (docid : Nat) (dochit : DocHit) : Prop where
  id : dochit.id = docid
  positive : 1 ≤ dochit.nhits
  bounded : dochit.nhits ≤ build.stdHitsLen
  room : dochit.hits.length = build.stdHitsLen
  field : dochit.field = fieldMask overshift dochit.counted

def Sized (dochits : List DocHit) : Prop :=
  ∀ dochit ∈ dochits, dochit.hits.length = build.stdHitsLen

structure Packed (docid : Nat) (hits : List StandardHit) (dochits : List DocHit) : Prop where
  entries : ∀ dochit ∈ dochits, Entry build overshift docid dochit
  counted : dochits.flatMap DocHit.counted = hits

variable {build overshift}

theorem sized_mallocDochits (count : Nat) : Sized build (mallocDochits build count) := by
  intro dochit member
  rw [List.eq_of_mem_replicate member]
  exact List.length_replicate

theorem Sized.set {dochits : List DocHit} (sized : Sized build dochits) {place : Nat}
    {filled : DocHit} (room : filled.hits.length = build.stdHitsLen) :
    Sized build (dochits.set place filled) := by
  intro dochit member
  rcases List.mem_or_eq_of_mem_set member with old | new
  · exact sized dochit old
  · rw [new]
    exact room

variable (overshift) in
theorem fillHits_spec (wordhits : List WordHit) (i : Nat) (dochit : DocHit)
    (fits : i + wordhits.length ≤ dochit.hits.length) :
    ∃ filled, fillHits overshift wordhits i dochit = .ok filled ∧ filled.id = dochit.id ∧
      filled.nhits = dochit.nhits ∧ filled.hits.length = dochit.hits.length ∧
      filled.hits.take (i + wordhits.length) =
        dochit.hits.take i ++ wordhits.map WordHit.hit ∧
      filled.field = (wordhits.map WordHit.hit).foldl
        (fun mask hit => mask ||| fieldBit overshift hit.field) dochit.field := by
  induction wordhits generalizing i dochit with
  | nil => exact ⟨dochit, rfl, rfl, rfl, rfl, by simp, rfl⟩
  | cons wordhit rest ih =>
    rw [List.length_cons] at fits
    have inside : i < dochit.hits.length := by omega
    obtain ⟨filled, runs, id, nhits, length, hits, field⟩ := ih (i + 1)
      { dochit with
        field := dochit.field ||| fieldBit overshift wordhit.hit.field
        hits := dochit.hits.set i wordhit.hit }
      (by rw [List.length_set]; omega)
    refine ⟨filled, ?_, id, nhits, ?_, ?_, ?_⟩
    · rw [fillHits, if_pos inside]
      exact runs
    · simpa using length
    · rw [List.length_cons, show i + (rest.length + 1) = i + 1 + rest.length by omega, hits,
        List.take_set, List.take_succ_eq_append_getElem inside, List.map_cons,
        List.set_append_right _ _ (by simp)]
      simp [Nat.min_eq_left inside.le]
    · rw [field]
      rfl

variable (overshift) in
theorem fillEntry_spec (docid : Nat) {wordhits : List WordHit} {old : DocHit} {nhits : Nat}
    (room : old.hits.length = build.stdHitsLen) (some_left : wordhits ≠ [])
    (count : nhits = min build.stdHitsLen wordhits.length) :
    ∃ filled, fillHits overshift (wordhits.take nhits) 0
        { old with id := docid, nhits := nhits, field := 0 } = .ok filled ∧
      Entry build overshift docid filled ∧
      filled.counted = (wordhits.take nhits).map WordHit.hit := by
  have positive : 0 < wordhits.length := List.length_pos_iff.mpr some_left
  have taken : (wordhits.take nhits).length = nhits := by
    rw [List.length_take]
    omega
  obtain ⟨filled, runs, id, nhitsKept, length, hits, field⟩ :=
    fillHits_spec overshift (wordhits.take nhits) 0
      { old with id := docid, nhits := nhits, field := 0 }
      (by rw [taken]; simp only [room]; omega)
  have counted : filled.counted = (wordhits.take nhits).map WordHit.hit := by
    rw [DocHit.counted, nhitsKept]
    simpa only [taken, Nat.zero_add, List.take_zero, List.nil_append] using hits
  have hitsPositive := build.stdHitsLen_pos
  refine ⟨filled, runs, ⟨id, ?_, ?_, ?_, ?_⟩, counted⟩
  · rw [nhitsKept]
    simp only [count]
    omega
  · rw [nhitsKept]
    simp only [count]
    omega
  · rw [length]
    exact room
  · rw [counted]
    exact field

theorem Packed.nil {docid : Nat} : Packed build overshift docid [] [] :=
  ⟨by simp, rfl⟩

theorem Packed.cons {docid : Nat} {first : DocHit} {later : List DocHit}
    {firstHits laterHits : List StandardHit} (entry : Entry build overshift docid first)
    (counted : first.counted = firstHits) (packed : Packed build overshift docid laterHits later) :
    Packed build overshift docid (firstHits ++ laterHits) (first :: later) where
  entries := by
    intro dochit member
    rcases List.mem_cons.mp member with equal | old
    · rw [equal]
      exact entry
    · exact packed.entries dochit old
  counted := by rw [List.flatMap_cons, counted, packed.counted]

theorem nextCount (build : Build) (left : Nat) :
    (if left > build.stdHitsLen then build.stdHitsLen else left) % 65536 =
      min build.stdHitsLen left := by
  have small := build.stdHitsLen_lt
  split
  · rw [Nat.mod_eq_of_lt small]
    omega
  · rw [Nat.mod_eq_of_lt (by omega)]
    omega

theorem take_room_succ {α : Type} (items : List α) (room share : Nat) :
    items.take ((room + 1) * share) =
      items.take (min share items.length) ++
        (items.drop (min share items.length)).take (room * share) := by
  rw [Nat.succ_mul, Nat.add_comm]
  rcases Nat.le_total share items.length with enough | few
  · rw [Nat.min_eq_left enough, List.take_add]
  · rw [Nat.min_eq_right few, List.take_of_length_le (by omega), List.take_length,
      List.drop_length, List.take_nil, List.append_nil]

variable (overshift) in
theorem fillDochitFrom_spec (docid room : Nat) (dochitIdx : Nat) (wordhits : List WordHit)
    (dochits : List DocHit) (sized : Sized build dochits)
    (fits : dochitIdx + wordhits.length ≤ dochits.length) :
    ∃ entries filled, fillDochitFrom build overshift docid room dochitIdx wordhits dochits =
        .ok (dochitIdx + entries.length, filled) ∧
      filled.length = dochits.length ∧ Sized build filled ∧
      dochitIdx + entries.length ≤ filled.length ∧
      filled.take (dochitIdx + entries.length) = dochits.take dochitIdx ++ entries ∧
      Packed build overshift docid ((wordhits.map WordHit.hit).take (room * build.stdHitsLen))
        entries ∧
      (0 < room → wordhits ≠ [] → 1 ≤ entries.length) := by
  induction room generalizing dochitIdx wordhits dochits with
  | zero =>
    refine ⟨[], dochits, rfl, rfl, sized, ?_, by simp, ?_, by simp⟩
    · simp only [List.length_nil]
      omega
    · simpa using Packed.nil
  | succ room ih =>
    by_cases none_left : wordhits = []
    · subst none_left
      refine ⟨[], dochits, by simp [fillDochitFrom], rfl, sized, by simpa using fits, by simp,
        ?_, by simp⟩
      simpa using Packed.nil
    · have positive : 0 < wordhits.length := List.length_pos_iff.mpr none_left
      have inside : dochitIdx < dochits.length := by omega
      obtain ⟨entry, fills, isEntry, counted⟩ := fillEntry_spec overshift docid
        (sized _ (List.getElem_mem inside)) none_left rfl
      have hitsPositive := build.stdHitsLen_pos
      obtain ⟨entries, filled, runs, length, filledSized, bound, taken, packed, -⟩ :=
        ih (dochitIdx + 1) (wordhits.drop (min build.stdHitsLen wordhits.length))
          (dochits.set dochitIdx entry) (sized.set isEntry.room)
          (by rw [List.length_drop, List.length_set]; omega)
      refine ⟨entry :: entries, filled, ?_, ?_, filledSized, ?_, ?_, ?_, by simp⟩
      · rw [fillDochitFrom, if_neg none_left, List.getElem?_eq_getElem inside]
        simp only [nextCount, fills, List.length_cons]
        rw [show dochitIdx + (entries.length + 1) = dochitIdx + 1 + entries.length by omega]
        exact runs
      · simpa using length
      · rw [List.length_cons]
        omega
      · rw [List.length_cons,
          show dochitIdx + (entries.length + 1) = dochitIdx + 1 + entries.length by omega, taken,
          List.take_set, List.take_succ_eq_append_getElem inside,
          List.set_append_right _ _ (by simp)]
        simp [Nat.min_eq_left inside.le]
      · rw [take_room_succ, List.length_map, ← List.map_take, ← List.map_drop]
        exact Packed.cons isEntry counted packed

variable (overshift) in
theorem fillDochit_spec (docid room : Nat) {wordhits : List WordHit} {dochits : List DocHit}
    (sized : Sized build dochits) (fits : wordhits.length ≤ dochits.length)
    (positive : 0 < room) (nonempty : wordhits ≠ []) :
    ∃ count filled, fillDochit build overshift dochits room docid wordhits = .ok (count, filled) ∧
      Sized build filled ∧ 1 ≤ count ∧ count ≤ filled.length ∧
      Packed build overshift docid ((wordhits.map WordHit.hit).take (room * build.stdHitsLen))
        (filled.take count) := by
  obtain ⟨entries, filled, runs, -, filledSized, bound, taken, packed, some_entry⟩ :=
    fillDochitFrom_spec overshift docid room 0 wordhits dochits sized (by omega)
  rw [Nat.zero_add] at runs bound taken
  rw [List.take_zero, List.nil_append] at taken
  exact ⟨entries.length, filled, runs, filledSized, some_entry positive nonempty, bound,
    by rw [taken]; exact packed⟩

end Packing

theorem countSuccessive_eq (firstWordid : Nat) (wordhits : List WordHit) (count : Nat) :
    countSuccessive firstWordid wordhits count =
      count + (wordhits.takeWhile fun wordhit => decide (wordhit.wordid = firstWordid)).length := by
  induction wordhits generalizing count with
  | nil => rfl
  | cons wordhit rest ih =>
    by_cases same : wordhit.wordid = firstWordid
    · rw [countSuccessive, if_neg (by simpa using same), ih,
        List.takeWhile_cons_of_pos (by simpa using same), List.length_cons]
      omega
    · rw [countSuccessive, if_pos same, List.takeWhile_cons_of_neg (by simpa using same)]
      rfl

theorem first_run (first : WordHit) (rest : List WordHit) :
    (first :: rest).take (countSuccessive first.wordid rest 1) =
        (first :: rest).takeWhile (fun wordhit => decide (wordhit.wordid = first.wordid)) ∧
      (first :: rest).drop (countSuccessive first.wordid rest 1) =
        (first :: rest).dropWhile (fun wordhit => decide (wordhit.wordid = first.wordid)) := by
  have count : countSuccessive first.wordid rest 1 =
      ((first :: rest).takeWhile fun wordhit => decide (wordhit.wordid = first.wordid)).length := by
    rw [countSuccessive_eq, List.takeWhile_cons_of_pos (by simp), List.length_cons]
    omega
  have whole := List.takeWhile_append_dropWhile
    (p := fun wordhit : WordHit => decide (wordhit.wordid = first.wordid)) (l := first :: rest)
  constructor
  · rw [count]
    nth_rewrite 2 [← whole]
    rw [List.take_left]
  · rw [count]
    nth_rewrite 2 [← whole]
    rw [List.drop_left]

/-- What is appended for hits that are in the order of their word ids. -/
structure Grouped (build : Build) (overshift : UInt8 → BitVec 32) (docid : Nat)
    (wordhits : List WordHit) (appends : List IndexdbAppend) : Prop where
  increasing : (appends.map IndexdbAppend.wordid).Pairwise (· < ·)
  present : ∀ wordid, wordid ∈ appends.map IndexdbAppend.wordid ↔
    ∃ wordhit ∈ wordhits, wordhit.wordid = wordid
  packed : ∀ append ∈ appends, Packed build overshift docid
    (((wordhits.filter fun wordhit => decide (wordhit.wordid = append.wordid)).map
      WordHit.hit).take (maxDochits * build.stdHitsLen)) append.dochits

theorem Grouped.nil {build : Build} {overshift : UInt8 → BitVec 32} {docid : Nat} :
    Grouped build overshift docid [] [] :=
  ⟨List.Pairwise.nil, by simp, by simp⟩

theorem Grouped.cons {build : Build} {overshift : UInt8 → BitVec 32} {docid : Nat}
    {first : WordHit} {rest : List WordHit} {dochits : List DocHit}
    {later : List IndexdbAppend} (ordered : Runs.Ordered WordHit.wordid (first :: rest))
    (packed : Packed build overshift docid
      ((((first :: rest).takeWhile fun wordhit => decide (wordhit.wordid = first.wordid)).map
        WordHit.hit).take (maxDochits * build.stdHitsLen)) dochits)
    (grouped : Grouped build overshift docid
      ((first :: rest).dropWhile fun wordhit => decide (wordhit.wordid = first.wordid)) later) :
    Grouped build overshift docid (first :: rest) (⟨first.wordid, dochits⟩ :: later) := by
  have least : ∀ wordhit ∈ first :: rest, first.wordid ≤ wordhit.wordid := by
    intro wordhit member
    rcases List.mem_cons.mp member with equal | behind
    · rw [equal]
    · exact ordered.head_le wordhit behind
  have run := Runs.takeWhile_smallest ordered least
  have above := Runs.dropWhile_smallest ordered least
  have whole := List.takeWhile_append_dropWhile
    (p := fun wordhit : WordHit => decide (wordhit.wordid = first.wordid)) (l := first :: rest)
  have laterAbove : ∀ append ∈ later, first.wordid < append.wordid := by
    intro append member
    obtain ⟨wordhit, behind, same⟩ :=
      (grouped.present append.wordid).mp (List.mem_map_of_mem member)
    rw [← same]
    exact above wordhit behind
  refine ⟨?_, ?_, ?_⟩
  · rw [List.map_cons, List.pairwise_cons]
    refine ⟨?_, grouped.increasing⟩
    intro wordid member
    obtain ⟨append, isLater, same⟩ := List.mem_map.mp member
    rw [← same]
    exact laterAbove append isLater
  · intro wordid
    rw [List.map_cons, List.mem_cons, grouped.present]
    constructor
    · rintro (equal | ⟨wordhit, behind, same⟩)
      · exact ⟨first, List.mem_cons_self, equal.symm⟩
      · exact ⟨wordhit, (List.dropWhile_sublist _).subset behind, same⟩
    · rintro ⟨wordhit, member, same⟩
      rw [← whole, List.mem_append, run, List.mem_filter] at member
      rcases member with ⟨-, isFirst⟩ | behind
      · left
        rw [← same]
        simpa using isFirst
      · exact Or.inr ⟨wordhit, behind, same⟩
  · intro append member
    rcases List.mem_cons.mp member with equal | isLater
    · subst equal
      rw [← run]
      exact packed
    · have gap := laterAbove append isLater
      have behindOnly : (first :: rest).filter (fun wordhit => decide (wordhit.wordid = append.wordid)) =
          ((first :: rest).dropWhile fun wordhit =>
            decide (wordhit.wordid = first.wordid)).filter
              fun wordhit => decide (wordhit.wordid = append.wordid) := by
        have noneInRun : ((first :: rest).takeWhile fun wordhit =>
            decide (wordhit.wordid = first.wordid)).filter
              (fun wordhit => decide (wordhit.wordid = append.wordid)) = [] := by
          rw [run, List.filter_filter, List.filter_eq_nil_iff]
          intro wordhit _
          simp only [Bool.and_eq_true, decide_eq_true_eq]
          omega
        nth_rewrite 1 [← whole]
        rw [List.filter_append, noneInRun, List.nil_append]
      rw [behindOnly]
      exact grouped.packed append isLater

section Saving

variable {build : Build} {overshift : UInt8 → BitVec 32} {indexdbAppend : IndexdbAppend → Bool}

/-- The buffer has an entry for each hit of the run, and the first entry is written. -/
theorem saveRuns_spec (docid : Nat) (appendsSucceed : ∀ append, indexdbAppend append = true)
    (fuel : Nat) (wordhits : List WordHit) (dochits : List DocHit)
    (enough : wordhits.length ≤ fuel) (ordered : Runs.Ordered WordHit.wordid wordhits)
    (sized : Sized build dochits) :
    ∃ saved, saveRuns build overshift indexdbAppend docid fuel wordhits dochits = .ok saved ∧
      saved.success = true ∧ Sized build saved.dochits ∧
      Grouped build overshift docid wordhits saved.appends := by
  induction fuel generalizing wordhits dochits with
  | zero =>
    obtain rfl := List.length_eq_zero_iff.mp (Nat.le_zero.mp enough)
    exact ⟨⟨true, dochits, []⟩, by rw [saveRuns], rfl, sized, Grouped.nil⟩
  | succ fuel ih =>
    cases wordhits with
    | nil => exact ⟨⟨true, dochits, []⟩, by rw [saveRuns], rfl, sized, Grouped.nil⟩
    | cons first rest =>
      obtain ⟨run, behind⟩ := first_run first rest
      have counted : 1 ≤ countSuccessive first.wordid rest 1 := by
        rw [countSuccessive_eq]
        omega
      obtain ⟨buffer, bufferIs, bufferSized, bufferFits⟩ : ∃ buffer,
          (if dochits.length = 0 ∨ dochits.length ≤ countSuccessive first.wordid rest 1 then
            mallocDochits build (countSuccessive first.wordid rest 1) else dochits) = buffer ∧
          Sized build buffer ∧ countSuccessive first.wordid rest 1 ≤ buffer.length := by
        split
        · exact ⟨_, rfl, sized_mallocDochits _, by simp [mallocDochits]⟩
        · exact ⟨dochits, rfl, sized, by omega⟩
      obtain ⟨count, filled, fills, filledSized, positive, bounded, packed⟩ :=
        fillDochit_spec overshift docid maxDochits bufferSized
          (show ((first :: rest).take (countSuccessive first.wordid rest 1)).length ≤ _ by
            rw [List.length_take]; omega)
          (by decide) (by rw [run, List.takeWhile_cons_of_pos (by simp)]; simp)
      obtain ⟨saved, saves, success, savedSized, grouped⟩ :=
        ih ((first :: rest).drop (countSuccessive first.wordid rest 1)) filled
          (by rw [List.length_drop]; omega) (ordered.drop _) filledSized
      refine ⟨{ saved with
        appends := ⟨first.wordid, filled.take count⟩ :: saved.appends }, ?_, success,
        savedSized, ?_⟩
      · rw [saveRuns]
        simp only [bufferIs, fills, saves, bind, Except.bind, appendsSucceed,
          if_pos (And.intro positive bounded), if_true]
      · rw [run] at packed
        rw [behind] at grouped
        exact Grouped.cons ordered packed grouped

end Saving

end Wisebot.Indexer
