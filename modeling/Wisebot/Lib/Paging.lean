import Mathlib.Data.List.Nodup
import Mathlib.Data.List.Pairwise
import Mathlib.Data.List.Sort

namespace Wisebot.Lib.Paging

/-! Pages of sorted lists: what a page loses when elements of the list are left
out, and when the list is put together from the first elements of its parts. -/

variable {α : Type}

/-- The page `[start, start + count)` of a list. -/
def page (items : List α) (start count : Nat) : List α := (items.drop start).take count

theorem page_append {first second : List α} {start count : Nat}
    (inside : start + count ≤ first.length) :
    page (first ++ second) start count = page first start count := by
  rw [page, page, List.drop_append_of_le_length (by omega),
    List.take_append_of_le_length (by rw [List.length_drop]; omega)]

/-- The last element of a page and its place in the list. -/
theorem page_last {items : List α} {start count : Nat} (nonempty : page items start count ≠ []) :
    ∃ last before after, items = before ++ last :: after ∧
      items.take (start + count) = before ++ [last] ∧
      before.length + 1 = start + (page items start count).length ∧
      (page items start count).getLast? = some last := by
  have bounds : start < items.length ∧ 0 < count := by
    constructor
    · by_contra short
      exact nonempty (by simp [page, List.drop_eq_nil_of_le (Nat.le_of_not_lt short)])
    · by_contra none
      exact nonempty (by simp [page, Nat.eq_zero_of_not_pos none])
  have length : (page items start count).length = min count (items.length - start) := by
    simp [page]
  let index := min (start + count) items.length - 1
  have inside : index < items.length := by omega
  refine ⟨items[index], items.take index, items.drop (index + 1), ?_, ?_, ?_, ?_⟩
  · rw [List.getElem_cons_drop, List.take_append_drop]
  · rw [List.take_append_getElem]
    by_cases whole : items.length ≤ start + count
    · rw [List.take_of_length_le whole, List.take_of_length_le (by omega)]
    · congr 1
      omega
  · rw [List.length_take, length]
    omega
  · rw [List.getLast?_eq_getElem?, length, page, List.getElem?_take_of_lt (by omega),
      List.getElem?_drop, List.getElem?_eq_getElem (by omega)]
    congr 2
    omega

/-- A page of a list without duplicates survives leaving elements out exactly if
it is empty or nothing before its end is left out. -/
theorem page_filter_iff {items : List α} (nodup : items.Nodup) (keep : α → Bool)
    (start count : Nat) :
    page (items.filter keep) start count = page items start count ↔
      page items start count = [] ∨ ∀ item ∈ items.take (start + count), keep item = true := by
  constructor
  · intro same
    by_cases empty : page items start count = []
    · exact .inl empty
    obtain ⟨last, before, after, isItems, isTake, place, isLast⟩ := page_last empty
    have nonempty : page (items.filter keep) start count ≠ [] := by rwa [same]
    obtain ⟨other, otherBefore, otherAfter, isOther, _, otherPlace, isOtherLast⟩ :=
      page_last nonempty
    obtain rfl : other = last := by
      rw [same, isLast] at isOtherLast
      exact (Option.some.inj isOtherLast).symm
    rw [same, ← place] at otherPlace
    have kept : keep other = true := by
      have member : other ∈ items.filter keep := by simp [isOther]
      exact (List.mem_filter.mp member).2
    have filtered : items.filter keep = before.filter keep ++ other :: after.filter keep := by
      rw [isItems, List.filter_append, List.filter_cons_of_pos kept]
    have filteredNodup := nodup.filter keep
    rw [isOther] at filtered filteredNodup
    have samePlace : otherBefore = before.filter keep := by
      obtain ⟨notBefore, notAfter⟩ : other ∉ otherBefore ∧ other ∉ otherAfter := by
        rw [List.nodup_append, List.nodup_cons] at filteredNodup
        exact ⟨fun member => filteredNodup.2.2 other member other List.mem_cons_self rfl,
          filteredNodup.2.1.1⟩
      exact ((List.append_cons_inj_of_notMem notBefore notAfter).mp filtered).1
    refine .inr ?_
    rw [isTake]
    intro item member
    rcases List.mem_append.mp member with inBefore | isOther
    · have whole : (before.filter keep).length = before.length := by
        rw [← samePlace]
        omega
      exact List.filter_eq_self.mp ((List.filter_sublist).eq_of_length whole) item inBefore
    · rw [List.mem_singleton] at isOther
      rw [isOther]
      exact kept
  · rintro (empty | all)
    · rw [empty]
      have fewer : (items.filter keep).length ≤ items.length := List.length_filter_le _ _
      rw [page, List.take_eq_nil_iff] at empty
      rcases empty with none | short
      · simp [page, none]
      · rw [List.drop_eq_nil_iff] at short
        simp [page, List.drop_eq_nil_of_le (fewer.trans short)]
    · have parts := List.take_append_drop (start + count) items
      have kept : (items.take (start + count)).filter keep = items.take (start + count) :=
        List.filter_eq_self.mpr all
      by_cases long : start + count ≤ items.length
      · have inside : start + count ≤ (items.take (start + count)).length := by
          rw [List.length_take]
          omega
        conv_lhs => rw [← parts, List.filter_append, kept]
        conv_rhs => rw [← parts]
        rw [page_append inside, page_append inside]
      · rw [List.take_of_length_le (by omega)] at kept
        rw [kept]

section Parts

variable {rel : α → α → Prop} {items : List α} {parts : List (List α)}

/-- A sorted list without duplicates and its sorted parts. -/
structure Parted (rel : α → α → Prop) (items : List α) (parts : List (List α)) : Prop where
  nodup : items.Nodup
  sorted : items.Pairwise rel
  perm : items.Perm parts.flatten
  partSorted : ∀ part ∈ parts, part.Pairwise rel

theorem cut_sublist (limit : Nat) (parts : List (List α)) :
    ((parts.map (List.take limit)).flatten).Sublist parts.flatten := by
  induction parts with
  | nil => exact List.Sublist.refl _
  | cons part parts induction => exact (List.take_sublist limit part).append induction

theorem Parted.part_nodup (parted : Parted rel items parts) : ∀ part ∈ parts, part.Nodup := by
  have nodup := parted.perm.nodup_iff.mp parted.nodup
  exact (List.nodup_flatten.mp nodup).1

theorem Parted.part_unique (parted : Parted rel items parts) {first second : List α} {item : α}
    (inFirst : first ∈ parts) (inSecond : second ∈ parts) (member : item ∈ first)
    (otherMember : item ∈ second) : first = second := by
  have disjoint := (List.nodup_flatten.mp (parted.perm.nodup_iff.mp parted.nodup)).2
  have symmetric : Std.Symm (List.Disjoint : List α → List α → Prop) :=
    ⟨fun _ _ disjoint _ inSecond inFirst => disjoint inFirst inSecond⟩
  by_contra different
  exact disjoint.forall inFirst inSecond different member otherMember

variable [DecidableEq α] [Std.Antisymm rel]

/-- A part is what the list has of it. -/
theorem Parted.part_eq (parted : Parted rel items parts) {part : List α} (isPart : part ∈ parts) :
    items.filter (fun item => item ∈ part) = part := by
  refine List.Perm.eq_of_pairwise' (parted.sorted.filter _) (parted.partSorted part isPart) ?_
  refine (List.perm_ext_iff_of_nodup (parted.nodup.filter _) (parted.part_nodup part isPart)).mpr ?_
  intro item
  simp only [List.mem_filter, decide_eq_true_eq, and_iff_right_iff_imp]
  intro member
  exact parted.perm.mem_iff.mpr (List.mem_flatten.mpr ⟨part, isPart, member⟩)

/-- What a part has in the beginning of the list is its own beginning. -/
theorem Parted.part_take (parted : Parted rel items parts) {part : List α} (isPart : part ∈ parts)
    (count : Nat) :
    (items.take count).filter (fun item => item ∈ part) =
      part.take ((items.take count).filter (fun item => item ∈ part)).length := by
  have whole := parted.part_eq isPart
  rw [← List.take_append_drop count items, List.filter_append] at whole
  exact List.prefix_iff_eq_take.mp ⟨_, whole⟩

/-- The first elements of the parts have all of the beginning of the list exactly
if no part has too many there. -/
theorem Parted.take_iff (parted : Parted rel items parts) (count limit : Nat) :
    (∀ item ∈ items.take count, item ∈ (parts.map (List.take limit)).flatten) ↔
      ∀ part ∈ parts, ((items.take count).filter (fun item => item ∈ part)).length ≤ limit := by
  constructor
  · intro all part isPart
    have beginning := parted.part_take isPart count
    have subset : (items.take count).filter (fun item => item ∈ part) ⊆ part.take limit := by
      intro item member
      obtain ⟨inTake, inPart⟩ := List.mem_filter.mp member
      rw [decide_eq_true_eq] at inPart
      obtain ⟨cut, isCut, inCut⟩ := List.mem_flatten.mp (all item inTake)
      obtain ⟨other, isOther, rfl⟩ := List.mem_map.mp isCut
      obtain rfl := parted.part_unique isPart isOther inPart (List.mem_of_mem_take inCut)
      exact inCut
    have nodup := (parted.nodup.sublist (List.take_sublist count items)).filter
      (fun item => decide (item ∈ part))
    exact ((List.subperm_of_subset nodup subset).length_le).trans (List.length_take_le _ _)
  · intro few item member
    have inItems : item ∈ items := List.mem_of_mem_take member
    obtain ⟨part, isPart, inPart⟩ := List.mem_flatten.mp (parted.perm.mem_iff.mp inItems)
    have inBeginning : item ∈ (items.take count).filter (fun item => item ∈ part) :=
      List.mem_filter.mpr ⟨member, by simpa using inPart⟩
    rw [parted.part_take isPart count] at inBeginning
    refine List.mem_flatten.mpr ⟨part.take limit, List.mem_map_of_mem isPart, ?_⟩
    exact (List.take_subset_take_left part (few part isPart)) inBeginning

/-- Pages of the list that is put together from the first elements of the parts. -/
theorem Parted.page_iff (parted : Parted rel items parts) {limit : Nat} {merged : List α}
    (mergedSorted : merged.Pairwise rel)
    (mergedPerm : merged.Perm (parts.map (List.take limit)).flatten) (start count : Nat) :
    page merged start count = page items start count ↔
      page items start count = [] ∨ ∀ part ∈ parts,
        ((items.take (start + count)).filter (fun item => item ∈ part)).length ≤ limit := by
  have sublist := cut_sublist limit parts
  have cutNodup := (parted.perm.nodup_iff.mp parted.nodup).sublist sublist
  have isFilter : merged =
      items.filter fun item => item ∈ (parts.map (List.take limit)).flatten := by
    refine List.Perm.eq_of_pairwise' mergedSorted (parted.sorted.filter _) ?_
    refine mergedPerm.trans ?_
    refine (List.perm_ext_iff_of_nodup cutNodup (parted.nodup.filter _)).mpr ?_
    intro item
    simp only [List.mem_filter, decide_eq_true_eq, iff_and_self]
    intro member
    exact parted.perm.mem_iff.mpr (sublist.subset member)
  rw [isFilter, page_filter_iff parted.nodup, ← parted.take_iff]
  simp only [decide_eq_true_eq]

end Parts

end Wisebot.Lib.Paging
