import Mathlib.Data.List.Chain
import Mathlib.Data.List.Nodup
import Mathlib.Data.List.Sort
import Mathlib.Order.Defs.LinearOrder
import Mathlib.Algebra.Ring.Nat

namespace Wisebot.Lib.Runs

/-! Lists ordered by a key: the items of one key stand together, and a stable
sort leaves them in the order they had. -/

section SortedRuns

variable {α β : Type} [LinearOrder β] (key : α → β)

/-- The items are in the order of their keys. -/
def Ordered (items : List α) : Prop := items.Pairwise fun first second => key first ≤ key second

variable {key}

theorem Ordered.tail {head : α} {rest : List α} (ordered : Ordered key (head :: rest)) :
    Ordered key rest :=
  (List.pairwise_cons.mp ordered).2

theorem Ordered.head_le {head : α} {rest : List α} (ordered : Ordered key (head :: rest)) :
    ∀ item ∈ rest, key head ≤ key item :=
  (List.pairwise_cons.mp ordered).1

theorem Ordered.drop {items : List α} (ordered : Ordered key items) (count : Nat) :
    Ordered key (items.drop count) :=
  List.Pairwise.sublist (List.drop_sublist count items) ordered

/-- Behind the first item of another key no item has the smallest key. -/
theorem takeWhile_smallest {items : List α} {smallest : β} (ordered : Ordered key items)
    (least : ∀ item ∈ items, smallest ≤ key item) :
    items.takeWhile (fun item => decide (key item = smallest)) =
      items.filter (fun item => decide (key item = smallest)) := by
  induction items with
  | nil => rfl
  | cons head rest ih =>
    have ihRest := ih ordered.tail fun item member => least item (List.mem_cons_of_mem head member)
    by_cases same : key head = smallest
    · rw [List.takeWhile_cons_of_pos (by simpa using same),
        List.filter_cons_of_pos (by simpa using same), ihRest]
    · have above : ∀ item ∈ rest, key item ≠ smallest := by
        intro item member equal
        have headLe := ordered.head_le item member
        rw [equal] at headLe
        exact same (le_antisymm headLe (least head List.mem_cons_self))
      rw [List.takeWhile_cons_of_neg (by simpa using same),
        List.filter_cons_of_neg (by simpa using same), eq_comm, List.filter_eq_nil_iff]
      intro item member
      simpa using above item member

theorem dropWhile_smallest {items : List α} {smallest : β} (ordered : Ordered key items)
    (least : ∀ item ∈ items, smallest ≤ key item) :
    ∀ item ∈ items.dropWhile (fun item => decide (key item = smallest)), smallest < key item := by
  induction items with
  | nil => simp
  | cons head rest ih =>
    by_cases same : key head = smallest
    · rw [List.dropWhile_cons_of_pos (by simpa using same)]
      exact ih ordered.tail fun item member => least item (List.mem_cons_of_mem head member)
    · rw [List.dropWhile_cons_of_neg (by simpa using same)]
      have headAbove : smallest < key head :=
        lt_of_le_of_ne (least head List.mem_cons_self) (Ne.symm same)
      intro item member
      rcases List.mem_cons.mp member with equal | later
      · rw [equal]
        exact headAbove
      · exact lt_of_lt_of_le headAbove (ordered.head_le item later)

/-- A stable sort by the key. -/
def sortByKey (key : α → β) (items : List α) : List α :=
  items.mergeSort fun first second => decide (key first ≤ key second)

theorem ordered_sortByKey (items : List α) : Ordered key (sortByKey key items) := by
  have sorted : (sortByKey key items).Pairwise
      fun first second => decide (key first ≤ key second) = true :=
    List.pairwise_mergeSort (by simpa using fun first second third => le_trans)
      (by simpa using fun first second => le_total (key first) (key second)) items
  exact sorted.imp (by simp)

theorem filter_sortByKey (items : List α) (wanted : β) :
    (sortByKey key items).filter (fun item => decide (key item = wanted)) =
      items.filter fun item => decide (key item = wanted) := by
  have equalKeys : (items.filter fun item => decide (key item = wanted)).Pairwise
      fun first second => decide (key first ≤ key second) = true := by
    rw [List.pairwise_iff_forall_sublist]
    intro first second pair
    have firstMember := pair.subset (List.mem_cons_self)
    have secondMember := pair.subset (List.mem_cons_of_mem first List.mem_cons_self)
    simp only [List.mem_filter, decide_eq_true_eq] at firstMember secondMember
    simp [firstMember.2, secondMember.2]
  have kept : (items.filter fun item => decide (key item = wanted)).Sublist (sortByKey key items) :=
    List.sublist_mergeSort (by simpa using fun first second third => le_trans)
      (by simpa using fun first second => le_total (key first) (key second)) equalKeys
      List.filter_sublist
  have keptFiltered := kept.filter fun item => decide (key item = wanted)
  simp only [List.filter_filter, Bool.and_self] at keptFiltered
  symm
  refine keptFiltered.eq_of_length ?_
  exact (((List.mergeSort_perm items _).filter _).length_eq).symm

theorem mem_sortByKey {items : List α} {item : α} : item ∈ sortByKey key items ↔ item ∈ items :=
  List.mem_mergeSort

@[simp] theorem length_sortByKey (items : List α) : (sortByKey key items).length = items.length :=
  List.length_mergeSort items

/-- What a sort by comparisons promises, whatever it does to items that compare as
equal: the items again, and in the order of every rank that the comparisons respect. -/
structure SortsByComparison (sort : (α → α → Int) → List α → List α) : Prop where
  perm : ∀ compare items, (sort compare items).Perm items
  ordered : ∀ {γ : Type} [LinearOrder γ] (rank : α → γ) (compare : α → α → Int) (items : List α),
    (∀ first ∈ items, ∀ second ∈ items, rank first < rank second →
      compare first second < 0 ∧ 0 < compare second first) →
    Ordered rank (sort compare items)

/-- Each item goes before the first that compares as greater. -/
def insertItem (compare : α → α → Int) (item : α) : List α → List α
  | [] => [item]
  | head :: rest =>
    if 0 < compare head item then item :: head :: rest
    else head :: insertItem compare item rest

/-- The sort for short lists. -/
def insertionSort (compare : α → α → Int) (items : List α) : List α :=
  items.foldl (fun sorted item => insertItem compare item sorted) []

theorem perm_insertItem (compare : α → α → Int) (item : α) (sorted : List α) :
    (insertItem compare item sorted).Perm (item :: sorted) := by
  induction sorted with
  | nil => exact List.Perm.refl _
  | cons head rest ih =>
    rw [insertItem]
    split
    · exact List.Perm.refl _
    · exact (ih.cons head).trans (List.Perm.swap item head rest)

theorem Ordered.insertItem {compare : α → α → Int} {item : α} {sorted : List α}
    (ordered : Ordered key sorted)
    (respects : ∀ other ∈ sorted, (key other < key item → compare other item < 0) ∧
      (key item < key other → 0 < compare other item)) :
    Ordered key (insertItem compare item sorted) := by
  induction sorted with
  | nil => exact List.pairwise_singleton _ _
  | cons head rest ih =>
    obtain ⟨below, above⟩ := respects head List.mem_cons_self
    rw [Runs.insertItem]
    split
    next greater =>
      have first : key item ≤ key head := by
        by_contra smaller
        have negative := below (not_le.mp smaller)
        omega
      refine List.pairwise_cons.mpr ⟨?_, ordered⟩
      intro other member
      rcases List.mem_cons.mp member with isHead | later
      · rw [isHead]
        exact first
      · exact first.trans (ordered.head_le other later)
    next notGreater =>
      have first : key head ≤ key item := by
        by_contra smaller
        exact notGreater (above (not_le.mp smaller))
      refine List.pairwise_cons.mpr ⟨?_, ih ordered.tail fun other member =>
        respects other (List.mem_cons_of_mem head member)⟩
      intro other member
      rcases List.mem_cons.mp ((perm_insertItem compare item rest).subset member) with isItem | later
      · rw [isItem]
        exact first
      · exact ordered.head_le other later

theorem sortsByComparison_insertionSort :
    SortsByComparison (insertionSort : (α → α → Int) → List α → List α) := by
  have loop : ∀ (compare : α → α → Int) (items sorted : List α),
      (items.foldl (fun sorted item => insertItem compare item sorted) sorted).Perm
        (items ++ sorted) := by
    intro compare items
    induction items with
    | nil => exact fun sorted => List.Perm.refl _
    | cons item rest ih =>
      intro sorted
      exact (ih _).trans (((perm_insertItem compare item sorted).append_left rest).trans
        List.perm_middle)
  constructor
  · intro compare items
    simpa [insertionSort] using loop compare items []
  · intro γ _ rank compare items respects
    have whole : ∀ front back : List α, items = front ++ back →
        Ordered rank (insertionSort compare front) := by
      intro front
      induction front using List.reverseRecOn with
      | nil => exact fun back _ => List.Pairwise.nil
      | append_singleton front item ih =>
        intro back split
        have before := ih ([item] ++ back) (by rw [split, List.append_assoc])
        rw [insertionSort, List.foldl_append]
        refine before.insertItem ?_
        intro other member
        have isOther : other ∈ items := by
          rw [split]
          have inFront := (loop compare front []).subset member
          rw [List.append_nil] at inFront
          simp [inFront]
        have isItem : item ∈ items := by
          rw [split]
          simp
        exact ⟨fun less => (respects other isOther item isItem less).1,
          fun greater => (respects item isItem other isOther greater).2⟩
    exact whole items [] (List.append_nil _).symm

end SortedRuns

section Together

variable {α β : Type} (key : α → β)

/-- The items of one key stand together. -/
def Together (items : List α) : Prop :=
  ∀ first between last, [first, between, last].Sublist items → key first = key last →
    key between = key first

variable {key}

theorem Together.sublist {items kept : List α} (together : Together key items)
    (sub : kept.Sublist items) : Together key kept :=
  fun first between last three same => together first between last (three.trans sub) same

theorem Ordered.together [LinearOrder β] {items : List α} (ordered : Ordered key items) :
    Together key items := by
  intro first between last three same
  have three_ordered : Ordered key [first, between, last] := List.Pairwise.sublist three ordered
  have lower := three_ordered.head_le between (by simp)
  have upper := three_ordered.tail.head_le last (by simp)
  rw [← same] at upper
  exact le_antisymm upper lower

/-- Different items have different keys. -/
theorem together_of_nodup {items : List α} (distinct : (items.map key).Nodup) :
    Together key items := by
  intro first between last three same
  have keys := (three.map key).nodup distinct
  simp [same] at keys

/-- A sublist whose first item is not in the front part is a sublist of the rest. -/
theorem sublist_of_head_notMem {front back rest : List α} {head : α}
    (sub : (head :: rest).Sublist (front ++ back)) (notFront : head ∉ front) :
    (head :: rest).Sublist back := by
  induction front with
  | nil => exact sub
  | cons first front ih =>
    have later : head ∉ front := fun member => notFront (List.mem_cons_of_mem first member)
    cases sub with
    | cons _ shorter => exact ih shorter later
    | cons_cons _ _ => exact absurd List.mem_cons_self notFront

theorem sublist_of_last_notMem (front : List α) {before after : List α} {last : α}
    (sub : (front ++ [last]).Sublist (before ++ after)) (notAfter : last ∉ after) :
    (front ++ [last]).Sublist before := by
  have reversed := sub.reverse
  rw [List.reverse_append, List.reverse_append, List.reverse_singleton,
    List.singleton_append] at reversed
  have kept := (sublist_of_head_notMem reversed (by simpa using notAfter)).reverse
  simpa using kept

/-- Nonempty groups of one key each; neighbours have different keys. -/
structure Grouped (key : α → β) (groups : List (List α)) : Prop where
  nonempty : ∀ group ∈ groups, group ≠ []
  same : ∀ group ∈ groups, ∀ first ∈ group, ∀ second ∈ group, key first = key second
  apart : groups.IsChain fun group next =>
    ∀ first ∈ group, ∀ second ∈ next, key first ≠ key second

/-- No key is in two groups. -/
def Separate (key : α → β) (groups : List (List α)) : Prop :=
  groups.Pairwise fun group next => ∀ first ∈ group, ∀ second ∈ next, key first ≠ key second

theorem Grouped.tail {group : List α} {groups : List (List α)}
    (grouped : Grouped key (group :: groups)) : Grouped key groups where
  nonempty := fun other member => grouped.nonempty other (List.mem_cons_of_mem group member)
  same := fun other member => grouped.same other (List.mem_cons_of_mem group member)
  apart := (List.isChain_cons.mp grouped.apart).2

/-- Groups of a list whose equal keys stand together are all that have their key. -/
theorem Grouped.separate {groups : List (List α)} (grouped : Grouped key groups)
    (together : Together key groups.flatten) : Separate key groups := by
  induction groups with
  | nil => exact List.Pairwise.nil
  | cons group groups ih =>
    rw [List.flatten_cons] at together
    refine List.pairwise_cons.mpr
      ⟨?_, ih grouped.tail (together.sublist (List.sublist_append_right _ _))⟩
    cases groups with
    | nil => simp
    | cons next later =>
      intro other isOther first isFirst second isSecond equal
      have neighbours := (List.isChain_cons_cons.mp grouped.apart).1
      obtain ⟨between, isBetween⟩ :=
        List.exists_mem_of_ne_nil next (grouped.nonempty next (by simp))
      have apart := neighbours first isFirst between isBetween
      rcases List.mem_cons.mp isOther with isNext | isLater
      · subst isNext
        exact neighbours first isFirst second isSecond equal
      · have three : [first, between, second].Sublist (group ++ (next :: later).flatten) := by
          rw [List.flatten_cons]
          refine (List.singleton_sublist.mpr isFirst).append
            ((List.singleton_sublist.mpr isBetween).append (List.singleton_sublist.mpr ?_))
          exact List.mem_flatten.mpr ⟨other, isLater, isSecond⟩
        exact apart (together first between second three equal).symm

end Together

end Wisebot.Lib.Runs
