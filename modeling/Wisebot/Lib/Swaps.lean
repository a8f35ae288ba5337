import Mathlib.Data.List.Perm.Basic
import Mathlib.Data.List.Sublists

namespace Wisebot.Lib

/-! Reordering a list by swaps of neighbours that stand in the wrong order of a relation,
which need not be an order. -/

variable {α : Type}

/-- `Swaps above before after`: neighbours of which the first is above the second were
exchanged, any number of times. -/
inductive Swaps (above : α → α → Prop) : List α → List α → Prop
  | refl (items : List α) : Swaps above items items
  | swap {front back after : List α} {first second : α} (wrong : above first second)
      (rest : Swaps above (front ++ second :: first :: back) after) :
      Swaps above (front ++ first :: second :: back) after

namespace Swaps

variable {above : α → α → Prop} {before middle after : List α} {first second : α}

theorem trans (left : Swaps above before middle) (right : Swaps above middle after) :
    Swaps above before after := by
  induction left with
  | refl => exact right
  | swap wrong _ induction => exact .swap wrong (induction right)

theorem cons (head : α) (swaps : Swaps above before after) :
    Swaps above (head :: before) (head :: after) := by
  induction swaps with
  | refl => exact .refl _
  | @swap front back after first second wrong _ induction =>
    exact @swap _ _ (head :: front) back (head :: after) first second wrong induction

theorem perm (swaps : Swaps above before after) : after.Perm before := by
  induction swaps with
  | refl => exact .refl _
  | swap wrong _ induction => exact induction.trans ((List.Perm.swap _ _ _).append_left _)

/-- A pair that one swap leaves in its order. -/
theorem sublist_swap {front back : List α} {left right : α} (notAbove : ¬ above first second)
    (wrong : above left right) (ordered : [first, second].Sublist (front ++ left :: right :: back)) :
    [first, second].Sublist (front ++ right :: left :: back) := by
  obtain ⟨inFront, inBack, same, subFront, subBack⟩ := List.sublist_append_iff.mp ordered
  suffices swapped : inBack.Sublist (right :: left :: back) by
    rw [same]
    exact subFront.append swapped
  cases inFront with
  | nil =>
    obtain rfl : [first, second] = inBack := same
    rcases List.cons_sublist_cons'.mp subBack with inTail | ⟨rfl, inTail⟩
    · rcases List.cons_sublist_cons'.mp inTail with deeper | ⟨rfl, deeper⟩
      · exact (deeper.cons left).cons right
      · exact (deeper.cons left).cons_cons first
    · rcases List.cons_sublist_cons'.mp inTail with deeper | ⟨rfl, _⟩
      · exact (deeper.cons_cons first).cons right
      · exact absurd wrong notAbove
  | cons head inFront =>
    rcases inBack with _ | ⟨item, rest⟩
    · exact List.nil_sublist _
    · have alone : rest = [] := by
        have lengths := congrArg List.length same
        simp only [List.length_cons, List.length_nil, List.length_append] at lengths
        exact List.eq_nil_of_length_eq_zero (by omega)
      subst alone
      have member : item ∈ right :: left :: back :=
        (List.Perm.swap right left back).mem_iff.mp (List.singleton_sublist.mp subBack)
      exact List.singleton_sublist.mpr member

/-- Two items of which the first is not above the second keep their order. -/
theorem keeps (swaps : Swaps above before after) (notAbove : ¬ above first second)
    (ordered : [first, second].Sublist before) : [first, second].Sublist after := by
  induction swaps with
  | refl => exact ordered
  | swap wrong _ induction => exact induction (sublist_swap notAbove wrong ordered)

/-- Of two items of a list without repetitions only one is in front of the other. -/
theorem not_both {items : List α} (nodup : items.Nodup)
    (ordered : [first, second].Sublist items) : ¬ [second, first].Sublist items := by
  induction items with
  | nil => cases ordered
  | cons item rest induction =>
    obtain ⟨fresh, nodup⟩ := List.nodup_cons.mp nodup
    intro reversed
    rcases List.cons_sublist_cons'.mp ordered with inRest | ⟨rfl, behind⟩
    · rcases List.cons_sublist_cons'.mp reversed with alsoInRest | ⟨rfl, _⟩
      · exact induction nodup inRest alsoInRest
      · exact fresh (inRest.subset (by simp))
    · rcases List.cons_sublist_cons'.mp reversed with inRest | ⟨rfl, _⟩
      · exact fresh (inRest.subset (by simp))
      · exact fresh (List.singleton_sublist.mp behind)

/-- What was exchanged once is not exchanged back. -/
theorem antisymm (asymm : ∀ first second, above first second → ¬ above second first)
    (nodup : before.Nodup) (there : Swaps above before after) (back : Swaps above after before) :
    before = after := by
  cases there with
  | refl => rfl
  | @swap front rear _ first second wrong rest =>
    exfalso
    have exchanged : [second, first].Sublist (front ++ second :: first :: rear) :=
      (((List.nil_sublist rear).cons_cons first).cons_cons second).trans
        (List.sublist_append_right front _)
    have returned := (rest.trans back).keeps (asymm first second wrong) exchanged
    have before : [first, second].Sublist (front ++ first :: second :: rear) :=
      (((List.nil_sublist rear).cons_cons second).cons_cons first).trans
        (List.sublist_append_right front _)
    exact not_both nodup before returned

/-- Exchanging neighbours of which the first is above the second does not change which pairs
stand in their order or the wrong way round. -/
theorem pairwise_iff {below : α → α → Prop}
    (flip : ∀ first second, above first second → below second first)
    (swaps : Swaps above before after) :
    before.Pairwise (fun first second => below first second ∨ above first second) ↔
      after.Pairwise fun first second => below first second ∨ above first second := by
  induction swaps with
  | refl => rfl
  | @swap front back _ first second wrong _ induction =>
    rw [← induction]
    simp only [List.pairwise_append, List.pairwise_cons, List.mem_cons]
    constructor
    · rintro ⟨inFront, ⟨ofFirst, ofSecond, inBack⟩, across⟩
      refine ⟨inFront, ⟨?_, fun item behind => ofFirst item (.inr behind), inBack⟩, ?_⟩
      · rintro item (rfl | behind)
        · exact .inl (flip _ _ wrong)
        · exact ofSecond item behind
      · rintro left inLeft right (rfl | rfl | behind)
        · exact across left inLeft _ (.inr (.inl rfl))
        · exact across left inLeft _ (.inl rfl)
        · exact across left inLeft _ (.inr (.inr behind))
    · rintro ⟨inFront, ⟨ofSecond, ofFirst, inBack⟩, across⟩
      refine ⟨inFront, ⟨?_, fun item behind => ofSecond item (.inr behind), inBack⟩, ?_⟩
      · rintro item (rfl | behind)
        · exact .inr wrong
        · exact ofFirst item behind
      · rintro left inLeft right (rfl | rfl | behind)
        · exact across left inLeft _ (.inr (.inl rfl))
        · exact across left inLeft _ (.inl rfl)
        · exact across left inLeft _ (.inr (.inr behind))

end Swaps

section Bubble

variable (above : α → α → Prop) [DecidableRel above]

/-- One pass from the end to the front, which exchanges neighbours in the wrong order. -/
def bubbleUp : List α → List α
  | [] => []
  | item :: rest =>
    match bubbleUp rest with
    | [] => [item]
    | next :: others => if above item next then next :: item :: others else item :: next :: others

/-- Some passes, each behind the item that the one before has brought to the front. -/
def bubblePasses : (passes : Nat) → List α → List α
  | 0, items => items
  | passes + 1, items =>
    match bubbleUp above items with
    | [] => []
    | first :: rest => first :: bubblePasses passes rest

def bubbleSort (items : List α) : List α := bubblePasses above (items.length - 1) items

variable {above} {items : List α}

theorem bubbleUp_swaps (items : List α) : Swaps above items (bubbleUp above items) := by
  induction items with
  | nil => exact .refl _
  | cons item rest induction =>
    rw [bubbleUp]
    cases risen : bubbleUp above rest with
    | nil =>
      rw [risen] at induction
      exact induction.cons item
    | cons next others =>
      rw [risen] at induction
      dsimp only
      split
      · next wrong => exact (induction.cons item).trans (@Swaps.swap _ _ [] _ _ _ _ wrong (.refl _))
      · exact induction.cons item

theorem bubblePasses_swaps (passes : Nat) (items : List α) :
    Swaps above items (bubblePasses above passes items) := by
  induction passes generalizing items with
  | zero => exact .refl _
  | succ passes induction =>
    have up : Swaps above items (bubbleUp above items) := bubbleUp_swaps items
    rw [bubblePasses]
    cases risen : bubbleUp above items with
    | nil =>
      rw [risen] at up
      exact up
    | cons first rest =>
      rw [risen] at up
      exact up.trans ((induction rest).cons first)

theorem bubbleSort_swaps (items : List α) : Swaps above items (bubbleSort above items) :=
  bubblePasses_swaps _ items

theorem bubbleUp_eq_of_chain (chain : items.IsChain fun first second => ¬ above first second) :
    bubbleUp above items = items := by
  induction items with
  | nil => rfl
  | cons item rest induction =>
    rw [bubbleUp, induction (List.isChain_of_isChain_cons chain)]
    cases rest with
    | nil => rfl
    | cons next others =>
      dsimp only
      rw [if_neg (List.isChain_cons_cons.mp chain).1]

theorem bubblePasses_eq_of_chain (passes : Nat)
    (chain : items.IsChain fun first second => ¬ above first second) :
    bubblePasses above passes items = items := by
  induction passes generalizing items with
  | zero => rfl
  | succ passes induction =>
    rw [bubblePasses, bubbleUp_eq_of_chain chain]
    cases items with
    | nil => rfl
    | cons first rest =>
      dsimp only
      rw [induction (List.isChain_of_isChain_cons chain)]

theorem chain_of_bubbleUp_eq (irrefl : ∀ item, ¬ above item item)
    (same : bubbleUp above items = items) :
    items.IsChain fun first second => ¬ above first second := by
  induction items with
  | nil => exact .nil
  | cons item rest induction =>
    rw [bubbleUp] at same
    cases risen : bubbleUp above rest with
    | nil =>
      rw [risen] at same
      obtain rfl : [] = rest := (List.cons.inj same).2
      exact .singleton item
    | cons next others =>
      rw [risen] at same
      dsimp only at same
      split at same
      · next wrong =>
        obtain ⟨rfl, -⟩ := List.cons.inj same
        exact absurd wrong (irrefl next)
      · next right =>
        obtain rfl : next :: others = rest := (List.cons.inj same).2
        exact List.isChain_cons_cons.mpr ⟨right, induction risen⟩

theorem bubbleSort_swaps_of_bubbleUp (items : List α) :
    Swaps above (bubbleUp above items) (bubbleSort above items) := by
  match items with
  | [] => exact .refl _
  | [item] => exact .refl _
  | item :: next :: others =>
    change Swaps above _ (bubblePasses above (others.length + 1) (item :: next :: others))
    rw [bubblePasses]
    cases bubbleUp above (item :: next :: others) with
    | nil => exact .refl _
    | cons first rest => exact (bubblePasses_swaps others.length rest).cons first

/-- The sort leaves exactly the lists alone in which no neighbours are in the wrong order. -/
theorem bubbleSort_eq_iff (asymm : ∀ first second, above first second → ¬ above second first)
    (nodup : items.Nodup) :
    bubbleSort above items = items ↔ items.IsChain fun first second => ¬ above first second := by
  constructor
  · intro same
    refine chain_of_bubbleUp_eq (fun item wrong => asymm item item wrong wrong) ?_
    have back : Swaps above (bubbleUp above items) (bubbleSort above items) :=
      bubbleSort_swaps_of_bubbleUp items
    rw [same] at back
    exact ((bubbleUp_swaps items).antisymm asymm nodup back).symm
  · exact bubblePasses_eq_of_chain _

/-! What the sort achieves when any two items stand below each other or the wrong way
round. -/

section Sorted

variable {below : α → α → Prop}
  (flip : ∀ first second, above first second → below second first)
  (trans : ∀ first second third, below first second → below second third → below first third)

include flip trans

theorem bubbleUp_below {first : α} {rest : List α}
    (comparable : items.Pairwise fun first second => below first second ∨ above first second)
    (risen : bubbleUp above items = first :: rest) : ∀ other ∈ rest, below first other := by
  induction items generalizing first rest with
  | nil => cases risen
  | cons item others induction =>
    have swaps : Swaps above others (bubbleUp above others) := bubbleUp_swaps others
    rw [bubbleUp] at risen
    cases isRisen : bubbleUp above others with
    | nil =>
      rw [isRisen] at risen
      cases risen
      simp
    | cons next tail =>
      rw [isRisen] at risen swaps
      have nextBelow := induction (List.pairwise_cons.mp comparable).2 isRisen
      have ordered := ((swaps.cons item).pairwise_iff flip).mp comparable
      have itemNext := (List.pairwise_cons.mp ordered).1 next (by simp)
      dsimp only at risen
      split at risen
      · next wrong =>
        cases risen
        intro other member
        rcases List.mem_cons.mp member with rfl | inTail
        · exact flip _ _ wrong
        · exact nextBelow other inTail
      · next right =>
        cases risen
        have isBelow := itemNext.resolve_right right
        intro other member
        rcases List.mem_cons.mp member with rfl | inTail
        · exact isBelow
        · exact trans _ _ _ isBelow (nextBelow other inTail)

theorem bubblePasses_pairwise (passes : Nat) (enough : items.length ≤ passes + 1)
    (comparable : items.Pairwise fun first second => below first second ∨ above first second) :
    (bubblePasses above passes items).Pairwise below := by
  induction passes generalizing items with
  | zero =>
    match items with
    | [] => exact .nil
    | [item] => exact List.pairwise_singleton below item
    | _ :: _ :: _ => simp at enough
  | succ passes induction =>
    have swaps : Swaps above items (bubbleUp above items) := bubbleUp_swaps items
    have lengths := swaps.perm.length_eq
    rw [bubblePasses]
    cases risen : bubbleUp above items with
    | nil => exact .nil
    | cons first rest =>
      rw [risen] at swaps lengths
      have ordered := (swaps.pairwise_iff flip).mp comparable
      rw [List.length_cons] at lengths
      refine List.pairwise_cons.mpr
        ⟨?_, induction (by omega) (List.pairwise_cons.mp ordered).2⟩
      intro other member
      exact bubbleUp_below flip trans comparable risen other
        ((bubblePasses_swaps passes rest).perm.mem_iff.mp member)

/-- The sort puts exactly those lists in order in which any two items stand below each other
or the wrong way round. -/
theorem bubbleSort_pairwise_iff :
    (bubbleSort above items).Pairwise below ↔
      items.Pairwise fun first second => below first second ∨ above first second := by
  constructor
  · intro sorted
    exact ((bubbleSort_swaps items).pairwise_iff flip).mpr (sorted.imp .inl)
  · exact bubblePasses_pairwise flip trans _ (by omega)

end Sorted

end Bubble

end Wisebot.Lib
