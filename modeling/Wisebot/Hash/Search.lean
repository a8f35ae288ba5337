import Mathlib.Data.List.Basic
import Wisebot.Hash.Table

namespace Wisebot.Hash

/-! The hand-written searches inside one sorted bucket. -/

variable {Key Data : Type} {slots : List (Slot Key Data)} {hashkey : HashKey} {key : Key}

def SlotsSorted (slots : List (Slot Key Data)) : Prop :=
  slots.Pairwise fun first second =>
    first.hashkey.value ≤ second.hashkey.value

theorem hashkeyAt_getElem (slots : List (Slot Key Data)) {index : Nat}
    (bound : index < slots.length) :
    hashkeyAt slots index = (slots[index]).hashkey := by
  simp [hashkeyAt, List.getElem?_eq_getElem bound]

theorem SlotsSorted.hashkeyAt_le (sorted : SlotsSorted slots) {first second : Nat}
    (le : first ≤ second) (bound : second < slots.length) :
    (hashkeyAt slots first).value ≤ (hashkeyAt slots second).value := by
  rcases Nat.lt_or_eq_of_le le with lt | rfl
  · rw [hashkeyAt_getElem slots (lt.trans bound), hashkeyAt_getElem slots bound]
    exact List.pairwise_iff_getElem.mp sorted first second _ _ lt
  · exact Nat.le_refl _

/-! `findMid` keeps every position before `startPos` below the key and the
position `finPos` above it, unless it is still the last one. -/

structure MidRange (slots : List (Slot Key Data)) (hashkey : HashKey)
    (startPos finPos : Nat) : Prop where
  fin_lt : finPos < slots.length
  below : ∀ index < startPos,
    (hashkeyAt slots index).value < hashkey.value
  above : finPos + 1 = slots.length ∨
    hashkey.value < (hashkeyAt slots finPos).value

theorem MidRange.raise {startPos finPos middle : Nat}
    (range : MidRange slots hashkey startPos finPos) (sorted : SlotsSorted slots)
    (within : middle ≤ finPos) (lt : (hashkeyAt slots middle).value < hashkey.value) :
    MidRange slots hashkey (middle + 1) finPos where
  fin_lt := range.fin_lt
  below := fun index lower => by
    have bound := range.fin_lt
    have le := sorted.hashkeyAt_le (Nat.le_of_lt_succ lower) (by omega)
    omega
  above := range.above

theorem MidRange.lower {startPos finPos middle : Nat}
    (range : MidRange slots hashkey startPos finPos) (within : middle ≤ finPos)
    (gt : hashkey.value < (hashkeyAt slots middle).value) :
    MidRange slots hashkey startPos middle where
  fin_lt := Nat.lt_of_le_of_lt within range.fin_lt
  below := range.below
  above := .inr gt

theorem MidRange.exhausted {startPos finPos : Nat} (range : MidRange slots hashkey startPos finPos)
    (empty : finPos < startPos) :
    ∀ index < slots.length, (hashkeyAt slots index).value < hashkey.value := by
  intro index bound
  have last := range.below finPos empty
  rcases range.above with atEnd | gt
  · exact range.below index (by omega)
  · omega

theorem findMid_none (sorted : SlotsSorted slots) {fuel startPos finPos midPos : Nat}
    (range : MidRange slots hashkey startPos finPos)
    (result : findMid slots hashkey fuel startPos finPos midPos = none) :
    ∀ index < slots.length, (hashkeyAt slots index).value ≠ hashkey.value := by
  induction fuel generalizing startPos finPos midPos with
  | zero => simp [findMid] at result
  | succ fuel induction =>
    simp only [findMid] at result
    split at result
    case isFalse => cases result
    case isTrue nonempty =>
      cases order : hashkeycmp (hashkeyAt slots ((startPos + finPos) / 2))
          hashkey with
      | eq => simp [order] at result
      | lt =>
        have lt := hashkeycmp_lt.mp order
        simp only [order] at result
        split at result
        case isTrue impossible => omega
        case isFalse =>
          exact induction (range.raise sorted (by omega) lt) result
      | gt =>
        have gt := hashkeycmp_gt.mp order
        simp only [order] at result
        split at result
        case isTrue stopped =>
          intro index bound equal
          rcases Nat.lt_or_ge index startPos with lower | upper
          · have := range.below index lower
            omega
          · have ordered : (startPos + finPos) / 2 ≤ index := by omega
            have := sorted.hashkeyAt_le ordered bound
            omega
        case isFalse =>
          exact induction (range.lower (by omega) gt) result

theorem findMid_some (sorted : SlotsSorted slots) {fuel startPos finPos midPos found : Nat}
    (range : MidRange slots hashkey startPos finPos) (enough : finPos + 1 - startPos ≤ fuel)
    (previous : finPos < startPos → midPos < slots.length)
    (result : findMid slots hashkey fuel startPos finPos midPos =
      some found) :
    found < slots.length ∧ (hashkeyAt slots found = hashkey ∨
      ∀ index < slots.length,
        (hashkeyAt slots index).value < hashkey.value) := by
  induction fuel generalizing startPos finPos midPos with
  | zero =>
    simp only [findMid, Option.some.injEq] at result
    subst result
    exact ⟨previous (by omega), .inr (range.exhausted (by omega))⟩
  | succ fuel induction =>
    simp only [findMid] at result
    have finBound := range.fin_lt
    split at result
    case isFalse empty =>
      cases result
      exact ⟨previous (by omega), .inr (range.exhausted (by omega))⟩
    case isTrue nonempty =>
      cases order : hashkeycmp (hashkeyAt slots ((startPos + finPos) / 2))
          hashkey with
      | eq =>
        simp only [order, Option.some.injEq] at result
        subst result
        exact ⟨by omega, .inl (hashkeycmp_self_iff.mp order)⟩
      | lt =>
        have lt := hashkeycmp_lt.mp order
        simp only [order] at result
        split at result
        case isTrue => cases result
        case isFalse =>
          exact induction (range.raise sorted (by omega) lt) (by omega)
            (fun _ => by omega) result
      | gt =>
        have gt := hashkeycmp_gt.mp order
        simp only [order] at result
        split at result
        case isTrue => cases result
        case isFalse differs =>
          have moved : startPos ≠ (startPos + finPos) / 2 :=
            fun equal => differs ⟨equal, trivial⟩
          exact induction (range.lower (by omega) gt) (by omega)
            (fun _ => by omega) result

theorem findMid_lt {fuel startPos finPos midPos found : Nat} (finBound : finPos < slots.length)
    (previous : midPos < slots.length ∨ 0 < fuel ∧ startPos ≤ finPos)
    (result : findMid slots hashkey fuel startPos finPos midPos =
      some found) : found < slots.length := by
  induction fuel generalizing startPos finPos midPos with
  | zero =>
    simp only [findMid, Option.some.injEq] at result
    omega
  | succ fuel induction =>
    simp only [findMid] at result
    split at result
    case isFalse empty =>
      cases result
      omega
    case isTrue nonempty =>
      cases order : hashkeycmp (hashkeyAt slots ((startPos + finPos) / 2))
          hashkey with
      | eq =>
        simp only [order, Option.some.injEq] at result
        omega
      | lt =>
        simp only [order] at result
        split at result
        case isTrue => cases result
        case isFalse =>
          exact induction finBound (.inl (by omega)) result
      | gt =>
        simp only [order] at result
        split at result
        case isTrue => cases result
        case isFalse =>
          exact induction (by omega) (.inl (by omega)) result

theorem scanForward_some {keyEq : Key → Key → Bool} {fPos found : Nat}
    (result : scanForward keyEq key hashkey slots fPos = some found) :
    fPos ≤ found ∧ ∃ slot, slots[found - fPos]? = some slot ∧
      keyEq slot.key key = true := by
  induction slots generalizing fPos with
  | nil => simp [scanForward] at result
  | cons slot rest induction =>
    unfold scanForward at result
    split at result
    case isTrue equal =>
      cases result
      exact ⟨Nat.le_refl _, slot, by simp, equal⟩
    case isFalse =>
      cases rest with
      | nil => simp at result
      | cons next others =>
        simp only at result
        split at result
        case isFalse => cases result
        case isTrue =>
          obtain ⟨le, stored, at_found, equal⟩ := induction result
          refine ⟨by omega, stored, ?_, equal⟩
          have shifted : found - fPos = (found - (fPos + 1)) + 1 := by omega
          rw [shifted, List.getElem?_cons_succ]
          exact at_found

theorem scanForward_none {keyEq : Key → Key → Bool} {fPos : Nat} (sorted : SlotsSorted slots)
    (least : ∀ slot ∈ slots, hashkey.value ≤ slot.hashkey.value)
    (result : scanForward keyEq key hashkey slots fPos = none) :
    ∀ slot ∈ slots, slot.hashkey = hashkey → keyEq slot.key key = false := by
  induction slots generalizing fPos with
  | nil => simp
  | cons slot rest induction =>
    unfold scanForward at result
    split at result
    case isTrue => cases result
    case isFalse differs =>
      intro other member same
      rcases List.mem_cons.mp member with rfl | inRest
      · simpa using differs
      · have restSorted := List.Pairwise.of_cons sorted
        cases rest with
        | nil => simp at inRest
        | cons next others =>
          simp only at result
          split at result
          case isTrue =>
            exact induction restSorted
              (fun entry inside => least entry (by simp [inside]))
              result other inRest same
          case isFalse past =>
            have beyond : hashkey.value < next.hashkey.value := by
              have le := least next (by simp)
              have ne : hashkey.value ≠ next.hashkey.value :=
                fun equal => past (HashKey.value_inj equal.symm)
              omega
            have le : next.hashkey.value ≤ other.hashkey.value := by
              rcases List.mem_cons.mp inRest with rfl | inOthers
              · exact Nat.le_refl _
              · exact List.rel_of_pairwise_cons restSorted inOthers
            rw [same] at le
            omega

theorem scanBackward_some {keyEq : Key → Key → Bool} {bPos found : Nat}
    (result : scanBackward keyEq key hashkey slots bPos = some found)
    (enough : slots.length ≤ bPos + 1) :
    found ≤ bPos ∧ ∃ slot, slots[bPos - found]? = some slot ∧
      keyEq slot.key key = true := by
  induction slots generalizing bPos with
  | nil => simp [scanBackward] at result
  | cons slot rest induction =>
    unfold scanBackward at result
    split at result
    case isFalse => cases result
    case isTrue =>
      split at result
      case isTrue equal =>
        cases result
        exact ⟨Nat.le_refl _, slot, by simp, equal⟩
      case isFalse =>
        cases rest with
        | nil => simp [scanBackward] at result
        | cons next others =>
          simp only [List.length_cons] at enough
          obtain ⟨le, stored, at_found, equal⟩ :=
            induction result (by simp only [List.length_cons]; omega)
          refine ⟨by omega, stored, ?_, equal⟩
          have shifted : bPos - found = (bPos - 1 - found) + 1 := by omega
          rw [shifted, List.getElem?_cons_succ]
          exact at_found

theorem scanBackward_none {keyEq : Key → Key → Bool} {bPos : Nat}
    (sorted : slots.Pairwise fun first second =>
      second.hashkey.value ≤ first.hashkey.value)
    (greatest : ∀ slot ∈ slots, slot.hashkey.value ≤ hashkey.value)
    (result : scanBackward keyEq key hashkey slots bPos = none) :
    ∀ slot ∈ slots, slot.hashkey = hashkey → keyEq slot.key key = false := by
  induction slots generalizing bPos with
  | nil => simp
  | cons slot rest induction =>
    unfold scanBackward at result
    intro other member same
    split at result
    case isTrue =>
      split at result
      case isTrue => cases result
      case isFalse differs =>
        rcases List.mem_cons.mp member with rfl | inRest
        · simpa using differs
        · exact induction (List.Pairwise.of_cons sorted)
            (fun entry inside => greatest entry (by simp [inside]))
            result other inRest same
    case isFalse past =>
      have lower : slot.hashkey.value < hashkey.value := by
        have le := greatest slot (by simp)
        have ne : slot.hashkey.value ≠ hashkey.value :=
          fun equal => past (HashKey.value_inj equal)
        omega
      have le : other.hashkey.value ≤ slot.hashkey.value := by
        rcases List.mem_cons.mp member with rfl | inRest
        · exact Nat.le_refl _
        · exact List.rel_of_pairwise_cons sorted inRest
      rw [same] at le
      omega

/-! `findSlot` on a sorted bucket. -/

theorem findSlot_some {callbacks : Callbacks Key} {bucket : Bucket Key Data} {found : Nat}
    (flag : bucket.sorted = .sorted) (result : findSlot callbacks bucket key hashkey = some found) :
    ∃ slot, bucket.slots[found]? = some slot ∧
      callbacks.keyEq slot.key key = true := by
  simp only [findSlot, flag] at result
  split at result
  case isTrue => cases result
  case isFalse nonempty =>
    split at result
    case h_1 => cases result
    case h_2 midPos stopped =>
      have midBound := findMid_lt (by omega) (.inr (by omega)) stopped
      split at result
      case h_1 position forward =>
        cases result
        obtain ⟨le, slot, stored, equal⟩ := scanForward_some forward
        refine ⟨slot, ?_, equal⟩
        rw [List.getElem?_drop] at stored
        rwa [Nat.add_sub_cancel' le] at stored
      case h_2 =>
        have short : (bucket.slots.take midPos).reverse.length ≤
            midPos - 1 + 1 := by
          simp only [List.length_reverse, List.length_take]
          omega
        obtain ⟨le, slot, stored, equal⟩ := scanBackward_some result short
        refine ⟨slot, ?_, equal⟩
        obtain ⟨bound, _⟩ := List.getElem?_eq_some_iff.mp stored
        simp only [List.length_reverse, List.length_take] at bound
        rw [List.getElem?_reverse (by
          simpa only [List.length_take] using bound)] at stored
        rw [List.length_take, List.getElem?_take] at stored
        split at stored
        case isFalse => cases stored
        case isTrue =>
          have position : min midPos bucket.slots.length - 1 -
              (midPos - 1 - found) = found := by
            omega
          rwa [position] at stored

theorem scan_none {callbacks : Callbacks Key} {midPos : Nat} (sorted : SlotsSorted slots)
    (midBound : midPos < slots.length) (atKey : (slots[midPos]).hashkey = hashkey)
    (forward : scanForward callbacks.keyEq key hashkey
      (slots.drop midPos) midPos = none) (backward : scanBackward callbacks.keyEq key hashkey
      (slots.take midPos).reverse (midPos - 1) = none) :
    ∀ slot ∈ slots, slot.hashkey = hashkey →
      callbacks.keyEq slot.key key = false := by
  intro slot member same
  have dropEq := List.drop_eq_getElem_cons midBound
  have pairwise := sorted
  rw [← List.take_append_drop midPos slots, SlotsSorted,
    List.pairwise_append] at pairwise
  obtain ⟨takeSorted, dropSorted, across⟩ := pairwise
  rw [← List.take_append_drop midPos slots] at member
  rcases List.mem_append.mp member with inTake | inDrop
  · refine scanBackward_none (List.pairwise_reverse.mpr takeSorted)
      ?_ backward slot (List.mem_reverse.mpr inTake) same
    intro other inside
    have le := across other (List.mem_reverse.mp inside) slots[midPos]
      (by rw [dropEq]; exact List.mem_cons_self)
    rwa [atKey] at le
  · refine scanForward_none dropSorted ?_ forward slot inDrop same
    intro other inside
    rw [dropEq] at inside dropSorted
    rcases List.mem_cons.mp inside with rfl | later
    · rw [atKey]
    · have le := List.rel_of_pairwise_cons dropSorted later
      rwa [atKey] at le

theorem findSlot_none {callbacks : Callbacks Key} {bucket : Bucket Key Data}
    (flag : bucket.sorted = .sorted) (sorted : SlotsSorted bucket.slots)
    (result : findSlot callbacks bucket key hashkey = none) :
    ∀ slot ∈ bucket.slots, slot.hashkey = hashkey →
      callbacks.keyEq slot.key key = false := by
  intro slot member same
  obtain ⟨index, bound, stored⟩ := List.mem_iff_getElem.mp member
  have position : hashkeyAt bucket.slots index = hashkey := by
    rw [hashkeyAt_getElem bucket.slots bound, stored, same]
  have start : MidRange bucket.slots hashkey 0 (bucket.slots.length - 1) :=
    ⟨by omega, by simp, .inl (by omega)⟩
  simp only [findSlot, flag] at result
  split at result
  case isTrue => omega
  case isFalse =>
    split at result
    case h_1 missed =>
      exact absurd (by rw [position])
        (findMid_none sorted start missed index bound)
    case h_2 midPos stopped =>
      obtain ⟨midBound, atKey | below⟩ := findMid_some sorted start
        (by omega) (by omega) stopped
      · rw [hashkeyAt_getElem bucket.slots midBound] at atKey
        split at result
        case h_1 => cases result
        case h_2 forward =>
          exact scan_none sorted midBound atKey forward result slot member same
      · have lower := below index bound
        rw [position] at lower
        omega

/-! The position `hash_add` inserts at. -/

theorem insertLoop_spec (hashkey : HashKey) (sorted : SlotsSorted slots) (fuel start finish : Nat)
    (enough : finish - start ≤ fuel) (ordered : start ≤ finish) (finBound : finish < slots.length)
    (below : ∀ index < start, (hashkeyAt slots index).value ≤ hashkey.value)
    (above : finish + 1 = slots.length ∨
      hashkey.value < (hashkeyAt slots finish).value) :
    let position := insertLoop slots hashkey fuel start finish
    position < slots.length ∧
    (∀ index < position, (hashkeyAt slots index).value ≤ hashkey.value) ∧
    (position + 1 = slots.length ∨
      hashkey.value < (hashkeyAt slots position).value) := by
  induction fuel generalizing start finish with
  | zero =>
    have equal : start = finish := by omega
    subst equal
    exact ⟨finBound, below, above⟩
  | succ fuel induction =>
    simp only [insertLoop]
    split
    case isFalse done =>
      have equal : start = finish := by omega
      subst equal
      exact ⟨finBound, below, above⟩
    case isTrue unfinished =>
      split
      case isTrue greater =>
        exact induction _ _ (by omega) (by omega) (by omega) below
          (.inr (hashkeycmp_gt.mp greater))
      case isFalse notGreater =>
        rw [hashkeycmp_gt] at notGreater
        refine induction _ _ (by omega) (by omega) finBound ?_ above
        intro index lower
        have le := sorted.hashkeyAt_le (Nat.le_of_lt_succ lower) (by omega)
        omega

theorem insertPos_spec (hashkey : HashKey) (sorted : SlotsSorted slots) :
    (∀ slot ∈ slots.take (insertPos slots hashkey),
      slot.hashkey.value ≤ hashkey.value) ∧
    ∀ slot ∈ slots.drop (insertPos slots hashkey),
      hashkey.value ≤ slot.hashkey.value := by
  unfold insertPos
  split
  case isTrue empty =>
    rw [List.length_eq_zero_iff.mp empty]
    simp
  case isFalse nonempty =>
    have stops := insertLoop_spec hashkey sorted slots.length 0
      (slots.length - 1) (by omega) (by omega) (by omega) (by simp)
      (.inl (by omega))
    simp only at stops ⊢
    generalize insertLoop slots hashkey slots.length 0 (slots.length - 1) =
      position at stops ⊢
    obtain ⟨bound, below, above⟩ := stops
    have belowMem : ∀ slot ∈ slots.take position,
        slot.hashkey.value ≤ hashkey.value := by
      intro slot member
      obtain ⟨index, lower, rfl⟩ := List.mem_take_iff_getElem.mp member
      have le := below index (by omega)
      rwa [hashkeyAt_getElem slots (by omega)] at le
    have fromPosition : ∀ slot ∈ slots.drop position,
        (hashkeyAt slots position).value ≤ slot.hashkey.value := by
      intro slot member
      obtain ⟨index, lower, rfl⟩ := List.mem_drop_iff_getElem.mp member
      have inside : position + index < slots.length := by omega
      have le := sorted.hashkeyAt_le (Nat.le_add_right position index) inside
      rwa [hashkeyAt_getElem slots inside] at le
    split
    case isTrue lower =>
      rw [hashkeycmp_lt] at lower
      have atEnd : position + 1 = slots.length := by omega
      rw [atEnd, List.take_length, List.drop_length]
      refine ⟨?_, by simp⟩
      intro slot member
      rw [← List.take_append_drop position slots,
        List.drop_eq_getElem_cons bound, atEnd, List.drop_length] at member
      rcases List.mem_append.mp member with inTake | inDrop
      · exact belowMem slot inTake
      · rw [List.mem_singleton.mp inDrop,
          ← hashkeyAt_getElem slots bound]
        omega
    case isFalse notLower =>
      rw [hashkeycmp_lt] at notLower
      refine ⟨belowMem, fun slot member => ?_⟩
      have le := fromPosition slot member
      omega

theorem SlotsSorted.insert (sorted : SlotsSorted slots) (slot : Slot Key Data) :
    SlotsSorted (slots.take (insertPos slots slot.hashkey) ++
      slot :: slots.drop (insertPos slots slot.hashkey)) := by
  obtain ⟨below, above⟩ := insertPos_spec slot.hashkey sorted
  have pairwise := sorted
  rw [← List.take_append_drop (insertPos slots slot.hashkey) slots,
    SlotsSorted, List.pairwise_append] at pairwise
  obtain ⟨takeSorted, dropSorted, across⟩ := pairwise
  refine List.pairwise_append.mpr
    ⟨takeSorted, List.pairwise_cons.mpr ⟨above, dropSorted⟩, ?_⟩
  intro first inTake second inRest
  rcases List.mem_cons.mp inRest with rfl | inDrop
  · exact below first inTake
  · exact across first inTake second inDrop

theorem insert_perm (slots : List (Slot Key Data)) (position : Nat)
    (slot : Slot Key Data) :
    (slots.take position ++ slot :: slots.drop position).Perm
      (slot :: slots) := by
  have moved : (slots.take position ++ slot :: slots.drop position).Perm
      (slot :: (slots.take position ++ slots.drop position)) :=
    List.perm_middle
  rwa [List.take_append_drop] at moved

end Wisebot.Hash
