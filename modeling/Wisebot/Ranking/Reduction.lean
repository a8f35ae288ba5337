import Mathlib.Algebra.BigOperators.Group.List.Basic
import Wisebot.Indexer.Inversion
import Wisebot.Proximity.Lists

namespace Wisebot.Ranking

open Lib Lib.Runs
open Proximity (DocHit Entry Env IndexList WeightList Weight Posting readIndexList)
open Indexer (StandardHit)

/-! `reduce_dochits_to_one_per_doc` (`mod_qp/mod_qp2.c`): one entry a document, its relevance
summed in 32 bits and published in the 16 bits of `hitratio`. -/

/-- The loop, which moves the entries it keeps to the front. With no entry kept it would
write before the array. -/
def reduceLoop : (currentDocid : Nat) → (kept entries : List Entry) → Option (List Entry)
  | _, kept, [] => some kept
  | currentDocid, kept, entry :: entries =>
    if entry.dochit.id ≠ currentDocid then
      reduceLoop entry.dochit.id (kept ++ [entry]) entries
    else
      match kept.getLast? with
      | none => none
      | some last =>
        reduceLoop currentDocid
          (kept.dropLast ++ [{ last with relevance := last.relevance + entry.relevance }])
          entries

def setHitratio (entry : Entry) : Entry :=
  { entry with dochit := { entry.dochit with hitratio := entry.relevance.setWidth 16 } }

def reduceDochitsToOnePerDoc (entries : List Entry) : Option (List Entry) :=
  (reduceLoop 0 [] entries).map (List.map setHitratio)

def relevanceSum (entries : List Entry) (id : Nat) : Nat :=
  ((entries.filter fun entry => entry.dochit.id = id).map fun entry => entry.relevance.toNat).sum

/-- One entry a document, in order, with the sum of its relevances and a ratio that orders
the documents as the sums do. -/
structure Reduced (entries reduced : List Entry) : Prop where
  ordered : reduced.Pairwise fun first second => first.dochit.id < second.dochit.id
  documents : ∀ id, (∃ entry ∈ reduced, entry.dochit.id = id) ↔
    ∃ entry ∈ entries, entry.dochit.id = id
  sums : ∀ entry ∈ reduced, entry.relevance.toNat = relevanceSum entries entry.dochit.id
  ranks : ∀ first ∈ reduced, ∀ second ∈ reduced,
    (first.dochit.hitratio.toNat < second.dochit.hitratio.toNat ↔
      relevanceSum entries first.dochit.id < relevanceSum entries second.dochit.id)

def collapse : (current : Entry) → List Entry → List Entry
  | current, [] => [current]
  | current, entry :: entries =>
    if entry.dochit.id ≠ current.dochit.id then current :: collapse entry entries
    else collapse { current with relevance := current.relevance + entry.relevance } entries

theorem reduceLoop_eq (kept : List Entry) (current : Entry) (entries : List Entry) :
    reduceLoop current.dochit.id (kept ++ [current]) entries =
      some (kept ++ collapse current entries) := by
  induction entries generalizing kept current with
  | nil => rfl
  | cons entry entries induction =>
    rw [reduceLoop, collapse]
    by_cases other : entry.dochit.id ≠ current.dochit.id
    · rw [if_pos other, if_pos other, induction, List.append_assoc]
      rfl
    · rw [if_neg other, if_neg other, List.getLast?_concat]
      simp only [List.dropLast_concat]
      exact induction kept { current with relevance := current.relevance + entry.relevance }

theorem reduceDochits_cons (entry : Entry) (entries : List Entry) :
    reduceDochitsToOnePerDoc (entry :: entries) =
      if 0 < entry.dochit.id then some ((collapse entry entries).map setHitratio) else none := by
  rw [reduceDochitsToOnePerDoc, reduceLoop]
  by_cases positive : 0 < entry.dochit.id
  · rw [if_pos positive, if_pos (Nat.ne_of_gt positive), reduceLoop_eq]
    rfl
  · rw [if_neg positive, if_neg (by omega)]
    rfl

theorem relevanceSum_cons (entry : Entry) (entries : List Entry) (id : Nat) :
    relevanceSum (entry :: entries) id =
      (if entry.dochit.id = id then entry.relevance.toNat else 0) + relevanceSum entries id := by
  rw [relevanceSum, List.filter_cons]
  by_cases same : entry.dochit.id = id
  · simp [same, relevanceSum]
  · simp [same, relevanceSum]

theorem relevanceSum_absent {entries : List Entry} {id : Nat}
    (absent : ∀ entry ∈ entries, entry.dochit.id ≠ id) : relevanceSum entries id = 0 := by
  rw [relevanceSum, List.filter_eq_nil_iff.mpr]
  · rfl
  · intro entry member
    simpa using absent entry member

structure Collapsed (entries kept : List Entry) : Prop where
  ordered : kept.Pairwise fun first second => first.dochit.id < second.dochit.id
  documents : ∀ id, (∃ entry ∈ kept, entry.dochit.id = id) ↔
    ∃ entry ∈ entries, entry.dochit.id = id
  sums : ∀ entry ∈ kept,
    entry.relevance.toNat = relevanceSum entries entry.dochit.id % 2 ^ 32

theorem collapse_collapsed {current : Entry} {entries : List Entry}
    (sorted : Ordered (fun entry : Entry => entry.dochit.id) (current :: entries)) :
    Collapsed (current :: entries) (collapse current entries) := by
  induction entries generalizing current with
  | nil =>
    refine ⟨List.pairwise_singleton _ _, fun _ => Iff.rfl, ?_⟩
    intro entry member
    obtain rfl := List.mem_singleton.mp member
    rw [relevanceSum_cons, if_pos rfl, relevanceSum_absent (by simp), Nat.add_zero]
    exact (Nat.mod_eq_of_lt entry.relevance.isLt).symm
  | cons next entries induction =>
    have least := sorted.head_le
    have nextLe := least next List.mem_cons_self
    rw [collapse]
    by_cases other : next.dochit.id ≠ current.dochit.id
    · rw [if_pos other]
      have rest := induction sorted.tail
      have greater : ∀ entry ∈ next :: entries, current.dochit.id < entry.dochit.id := by
        intro entry member
        have leNext : next.dochit.id ≤ entry.dochit.id := by
          rcases List.mem_cons.mp member with rfl | later
          · exact Nat.le_refl _
          · exact sorted.tail.head_le entry later
        have leCurrent : current.dochit.id ≤ next.dochit.id := nextLe
        omega
      have greaterKept : ∀ entry ∈ collapse next entries, current.dochit.id < entry.dochit.id := by
        intro entry member
        obtain ⟨source, listed, same⟩ := (rest.documents entry.dochit.id).mp ⟨entry, member, rfl⟩
        rw [← same]
        exact greater source listed
      refine ⟨List.pairwise_cons.mpr ⟨greaterKept, rest.ordered⟩, fun id => ?_, ?_⟩
      · rw [List.exists_mem_cons_iff, List.exists_mem_cons_iff, rest.documents]
      · intro entry member
        rw [relevanceSum_cons]
        rcases List.mem_cons.mp member with rfl | later
        · rw [if_pos rfl, relevanceSum_absent fun other listed => (greater other listed).ne',
            Nat.add_zero]
          exact (Nat.mod_eq_of_lt entry.relevance.isLt).symm
        · rw [if_neg (greaterKept entry later).ne, Nat.zero_add]
          exact rest.sums entry later
    · have same : next.dochit.id = current.dochit.id := not_not.mp other
      rw [if_neg other]
      generalize merging : ({ current with
        relevance := current.relevance + next.relevance } : Entry) = merged
      have mergedId : merged.dochit.id = current.dochit.id := by rw [← merging]
      have mergedRelevance : merged.relevance.toNat =
          (current.relevance.toNat + next.relevance.toNat) % 2 ^ 32 := by
        rw [← merging]
        exact BitVec.toNat_add _ _
      have mergedSorted : Ordered (fun entry : Entry => entry.dochit.id) (merged :: entries) := by
        refine List.pairwise_cons.mpr ⟨fun entry member => ?_, sorted.tail.tail⟩
        beta_reduce
        rw [mergedId]
        exact least entry (List.mem_cons_of_mem next member)
      have rest := induction mergedSorted
      refine ⟨rest.ordered, fun id => ?_, fun entry member => ?_⟩
      · rw [rest.documents, List.exists_mem_cons_iff, List.exists_mem_cons_iff,
          List.exists_mem_cons_iff, mergedId, same, ← or_assoc, or_self]
      · rw [rest.sums entry member]
        simp only [relevanceSum_cons, mergedId, same, mergedRelevance]
        split
        case isTrue => omega
        case isFalse => omega

theorem hitratio_setHitratio (entry : Entry) :
    (setHitratio entry).dochit.hitratio.toNat = entry.relevance.toNat % 2 ^ 16 :=
  BitVec.toNat_setWidth _ _

def SumsFit (entries : List Entry) : Prop :=
  ∀ entry ∈ entries, relevanceSum entries entry.dochit.id < 2 ^ 32

def BlocksAgree (entries : List Entry) : Prop :=
  ∀ first ∈ entries, ∀ second ∈ entries,
    relevanceSum entries first.dochit.id / 2 ^ 16 < relevanceSum entries second.dochit.id / 2 ^ 16 →
    relevanceSum entries first.dochit.id % 2 ^ 16 < relevanceSum entries second.dochit.id % 2 ^ 16

section Published

variable {entries kept : List Entry} (collapsed : Collapsed entries kept)

include collapsed

theorem Collapsed.exists_kept {entry : Entry} (member : entry ∈ entries) :
    ∃ same ∈ kept, same.dochit.id = entry.dochit.id :=
  (collapsed.documents entry.dochit.id).mpr ⟨entry, member, rfl⟩

theorem Collapsed.exists_entry {entry : Entry} (member : entry ∈ kept) :
    ∃ same ∈ entries, same.dochit.id = entry.dochit.id :=
  (collapsed.documents entry.dochit.id).mp ⟨entry, member, rfl⟩

theorem Collapsed.sums_iff :
    (∀ entry ∈ kept, entry.relevance.toNat = relevanceSum entries entry.dochit.id) ↔
      SumsFit entries := by
  constructor
  · intro sums entry member
    obtain ⟨same, inside, id⟩ := collapsed.exists_kept member
    rw [← id, ← sums same inside]
    exact same.relevance.isLt
  · intro small entry member
    obtain ⟨source, listed, id⟩ := collapsed.exists_entry member
    have fits := small source listed
    rw [id] at fits
    rw [collapsed.sums entry member, Nat.mod_eq_of_lt fits]

theorem Collapsed.ranks_iff (small : SumsFit entries) :
    (∀ first ∈ kept, ∀ second ∈ kept,
      ((setHitratio first).dochit.hitratio.toNat < (setHitratio second).dochit.hitratio.toNat ↔
        relevanceSum entries first.dochit.id < relevanceSum entries second.dochit.id)) ↔
      BlocksAgree entries := by
  have ratio : ∀ entry ∈ kept, (setHitratio entry).dochit.hitratio.toNat =
      relevanceSum entries entry.dochit.id % 2 ^ 16 := by
    intro entry member
    rw [hitratio_setHitratio, collapsed.sums_iff.mpr small entry member]
  constructor
  · intro ranks first member1 second member2 lower
    obtain ⟨kept1, inside1, id1⟩ := collapsed.exists_kept member1
    obtain ⟨kept2, inside2, id2⟩ := collapsed.exists_kept member2
    have rank := ranks kept1 inside1 kept2 inside2
    rw [ratio kept1 inside1, ratio kept2 inside2, id1, id2] at rank
    exact rank.mpr (Nat.lt_of_div_lt_div lower)
  · intro blocks first member1 second member2
    obtain ⟨entry1, listed1, id1⟩ := collapsed.exists_entry member1
    obtain ⟨entry2, listed2, id2⟩ := collapsed.exists_entry member2
    have forward := blocks entry1 listed1 entry2 listed2
    have backward := blocks entry2 listed2 entry1 listed1
    rw [id1, id2] at forward backward
    rw [ratio first member1, ratio second member2]
    omega

theorem Collapsed.reduced_iff :
    Reduced entries (kept.map setHitratio) ↔ SumsFit entries ∧ BlocksAgree entries := by
  constructor
  · intro reduced
    have small : SumsFit entries := collapsed.sums_iff.mp fun entry member =>
      reduced.sums (setHitratio entry) (List.mem_map_of_mem member)
    exact ⟨small, (collapsed.ranks_iff small).mp fun first member1 second member2 =>
      reduced.ranks (setHitratio first) (List.mem_map_of_mem member1) (setHitratio second)
        (List.mem_map_of_mem member2)⟩
  · rintro ⟨small, blocks⟩
    refine ⟨?_, fun id => ?_, ?_, ?_⟩
    · exact List.pairwise_map.mpr collapsed.ordered
    · rw [← collapsed.documents id]
      constructor
      · rintro ⟨entry, member, same⟩
        obtain ⟨source, inside, rfl⟩ := List.mem_map.mp member
        exact ⟨source, inside, same⟩
      · rintro ⟨entry, member, same⟩
        exact ⟨setHitratio entry, List.mem_map_of_mem member, same⟩
    · intro entry member
      obtain ⟨source, inside, rfl⟩ := List.mem_map.mp member
      exact collapsed.sums_iff.mpr small source inside
    · intro first member1 second member2
      obtain ⟨source1, inside1, rfl⟩ := List.mem_map.mp member1
      obtain ⟨source2, inside2, rfl⟩ := List.mem_map.mp member2
      exact (collapsed.ranks_iff small).mpr blocks source1 inside1 source2 inside2

end Published

/-- The reduction does what it is for exactly on lists whose sums can be published. -/
theorem reduceDochitsToOnePerDoc_iff {entries : List Entry}
    (sorted : Ordered (fun entry : Entry => entry.dochit.id) entries) :
    (∃ reduced, reduceDochitsToOnePerDoc entries = some reduced ∧ Reduced entries reduced) ↔
      (∀ entry ∈ entries, 0 < entry.dochit.id) ∧ SumsFit entries ∧ BlocksAgree entries := by
  cases entries with
  | nil =>
    refine ⟨fun _ => ⟨by simp, by simp [SumsFit], by simp [BlocksAgree]⟩, fun _ => ⟨[], rfl, ?_⟩⟩
    exact ⟨List.Pairwise.nil, fun _ => Iff.rfl, by simp, by simp⟩
  | cons entry entries =>
    have reduced_iff := (collapse_collapsed sorted).reduced_iff
    rw [reduceDochits_cons]
    by_cases positive : 0 < entry.dochit.id
    · have all : ∀ other ∈ entry :: entries, 0 < other.dochit.id := by
        intro other member
        rcases List.mem_cons.mp member with rfl | later
        · exact positive
        · exact Nat.lt_of_lt_of_le positive (sorted.head_le other later)
      rw [if_pos positive, and_iff_right all, ← reduced_iff]
      constructor
      · rintro ⟨reduced, same, isReduced⟩
        obtain rfl := Option.some.inj same
        exact isReduced
      · exact fun isReduced => ⟨_, rfl, isReduced⟩
    · rw [if_neg positive]
      constructor
      · rintro ⟨reduced, none, _⟩
        cases none
      · exact fun publishable => absurd (publishable.1 entry List.mem_cons_self) positive

def fieldEntry (id : Nat) (field : UInt8) : DocHit where
  id := id
  field := 1#32 <<< field.toNat
  hits := List.replicate 4 ⟨field, 0⟩
  hitratio := 0
  nhits := 1

/-- A query that gives field 0 the weight 65536 and field 1 the weight 1, and a word that is in
field 0 of document 1 and in field 1 of document 2. -/
def weightedEnv : Env where
  build := Indexer.defaultBuild
  maxDocHitsSize := 10
  posting _ := .entries [fieldEntry 1 0, fieldEntry 2 1]
  weightList := ⟨true, 0, [⟨65536, 0⟩, ⟨1, 1⟩]⟩
  lastIndexedDid := 2
  log10 _ := 0
  buffer _ _ := ⟨fieldEntry 0 0, 0⟩
  buffer_room _ _ := rfl

def weightedWord : IndexList where
  wordid := 1
  field := 3
  listType := .normal
  isCompleteList := false
  entries := []

def weightedEntries : List Entry := [⟨fieldEntry 1 0, 65536⟩, ⟨fieldEntry 2 1, 1⟩]

theorem weightedEntries_sorted :
    Ordered (fun entry : Entry => entry.dochit.id) weightedEntries := by
  simp [Ordered, weightedEntries, fieldEntry]

theorem reduceDochitsToOnePerDoc_iff_weighted :
    (∃ reduced, reduceDochitsToOnePerDoc weightedEntries = some reduced ∧
        Reduced weightedEntries reduced) ↔
      (∀ entry ∈ weightedEntries, 0 < entry.dochit.id) ∧ SumsFit weightedEntries ∧
        BlocksAgree weightedEntries :=
  reduceDochitsToOnePerDoc_iff weightedEntries_sorted

/-- The document with the greater relevance gets the smaller ratio. -/
theorem heavy_document_ranked_last :
    readIndexList weightedEnv weightedWord =
        some { weightedWord with isCompleteList := true, entries := weightedEntries } ∧
      Ordered (fun entry : Entry => entry.dochit.id) weightedEntries ∧
      ¬ ∃ reduced, reduceDochitsToOnePerDoc weightedEntries = some reduced ∧
        Reduced weightedEntries reduced := by
  refine ⟨rfl, weightedEntries_sorted, ?_⟩
  rintro ⟨reduced, reducing, isReduced⟩
  have published : reduceDochitsToOnePerDoc weightedEntries =
      some [setHitratio ⟨fieldEntry 1 0, 65536⟩, setHitratio ⟨fieldEntry 2 1, 1⟩] := by decide
  rw [published] at reducing
  obtain rfl := Option.some.inj reducing
  have rank := isReduced.ranks _ (List.mem_cons_of_mem _ List.mem_cons_self) _ List.mem_cons_self
  revert rank
  decide

end Wisebot.Ranking
