import Wisebot.Ifs.Realign

namespace Wisebot.Ifs

open Wisebot.Lib

/-! What `__try_realign` does to the logical table when the range has entries that are not
used. -/

/-- The logical table as a list; `EMPTY` entries follow. -/
structure Table.Holds (table : Table) (entries : List LogicalEntry) : Prop where
  noEmpty : .empty ∉ entries
  fits : entries.length ≤ maxLogicalCount
  entry : ∀ l < maxLogicalCount, table.logicalIndex l = (entries[l]?).getD .empty

/-- A table that lists its segments once and in state `ALLOCATED`. -/
structure Table.Consistent (table : Table) (entries : List LogicalEntry) : Prop where
  holds : table.Holds entries
  sized : Sized table.segmentCountInSector
  once : (segments entries).Nodup
  known : ∀ p ∈ segments entries, p < maxSectorCount * table.segmentCountInSector
  allocated : ∀ p ∈ segments entries, table.stateOf p = .allocated

namespace Table.Holds

variable {table : Table} {entries others : List LogicalEntry}

theorem getElem?_eq (holds : table.Holds entries) {l : Nat} (inside : l < maxLogicalCount) :
    entries[l]? = if table.logicalIndex l = .empty then none else some (table.logicalIndex l) := by
  rw [holds.entry l inside]
  cases isEntry : entries[l]? with
  | none => rfl
  | some entry =>
    rw [Option.getD_some, if_neg]
    rintro rfl
    exact holds.noEmpty (List.mem_of_getElem? isEntry)

theorem unique (holds : table.Holds entries) (alsoHolds : table.Holds others) :
    entries = others := by
  refine List.ext_getElem? fun l => ?_
  rcases Nat.lt_or_ge l maxLogicalCount with inside | outside
  · rw [holds.getElem?_eq inside, alsoHolds.getElem?_eq inside]
  · rw [List.getElem?_eq_none (holds.fits.trans outside),
      List.getElem?_eq_none (alsoHolds.fits.trans outside)]

theorem firstEmpty_eq (holds : table.Holds entries) (l : Nat) :
    firstEmpty table (maxLogicalCount - l) l = max entries.length l := by
  have fits := holds.fits
  generalize isRemaining : maxLogicalCount - l = remaining
  induction remaining generalizing l with
  | zero =>
    rw [firstEmpty]
    omega
  | succ remaining induction =>
    have inside : l < maxLogicalCount := by omega
    rw [firstEmpty, holds.entry l inside]
    rcases Nat.lt_or_ge l entries.length with listed | behind
    · rw [List.getElem?_eq_getElem listed, Option.getD_some, if_neg, induction (l + 1) (by omega)]
      · omega
      · intro isEmpty
        exact holds.noEmpty (isEmpty ▸ List.getElem_mem listed)
    · rw [List.getElem?_eq_none behind, Option.getD_none, if_pos rfl]
      omega

end Table.Holds

section Releasing

variable {table : Table}

theorem releaseEntries_spec (sized : Sized table.segmentCountInSector) {remaining l : Nat}
    (inside : l + remaining ≤ maxLogicalCount)
    (known : ∀ i < remaining, ∀ p, table.logicalIndex (l + i) = .segment p →
      p < maxSectorCount * table.segmentCountInSector) :
    ∃ released, releaseEntries table remaining l = some (.success, released) ∧
      Keeps table released ∧
      ∀ q < maxSectorCount * table.segmentCountInSector,
        ((∃ i < remaining, table.logicalIndex (l + i) = .segment q) → released.stateOf q = .temp) ∧
        ((∀ i < remaining, table.logicalIndex (l + i) ≠ .segment q) →
          released.stateOf q = table.stateOf q) := by
  induction remaining generalizing table l with
  | zero => exact ⟨table, rfl, .refl table, fun q _ => ⟨by simp, fun _ => rfl⟩⟩
  | succ remaining induction =>
    have current : table.readLogical l = some (table.logicalIndex l) := if_pos (by omega)
    have headKnown : ∀ p, table.logicalIndex l = .segment p →
        p < maxSectorCount * table.segmentCountInSector := known 0 (by omega)
    have updated : ∃ next, updateEntry table (table.logicalIndex l) .temp = (.success, next) ∧
        Keeps table next ∧
        ∀ q < maxSectorCount * table.segmentCountInSector, next.stateOf q =
          if table.logicalIndex l = .segment q then .temp else table.stateOf q := by
      cases isEntry : table.logicalIndex l with
      | empty => exact ⟨table, rfl, .refl table, by simp⟩
      | notUse => exact ⟨table, rfl, .refl table, by simp⟩
      | segment p =>
        have small := headKnown p isEntry
        refine ⟨_, tableUpdatePhysicalSegment_eq sized small, ⟨rfl, rfl, rfl⟩, ?_⟩
        intro q qSmall
        have state := @tableUpdatePhysicalSegment_stateOf table p q .temp sized small qSmall
        rw [tableUpdatePhysicalSegment_eq sized small] at state
        simpa [eq_comm] using state
    obtain ⟨next, isNext, keeps, states⟩ := updated
    have count := keeps.segmentCountInSector
    have logical := keeps.logicalIndex
    obtain ⟨released, isReleased, restKeeps, restStates⟩ :=
      @induction next (count.symm ▸ sized) (l + 1) (by omega) (by
        intro i small p isSegment
        rw [logical, Nat.add_assoc, Nat.add_comm 1 i] at isSegment
        rw [count]
        exact known (i + 1) (by omega) p isSegment)
    refine ⟨released, ?_, keeps.trans restKeeps, ?_⟩
    · simp only [releaseEntries, current, isNext, isReleased]
    · intro q qSmall
      obtain ⟨become, stay⟩ := restStates q (count.symm ▸ qSmall)
      rw [logical] at become stay
      constructor
      · rintro ⟨i, small, isSegment⟩
        by_cases later : ∃ j < remaining, table.logicalIndex (l + 1 + j) = .segment q
        · exact become later
        · have notLater : ∀ j < remaining, table.logicalIndex (l + 1 + j) ≠ .segment q :=
            fun j inRest same => later ⟨j, inRest, same⟩
          cases i with
          | zero =>
            have isHere : table.logicalIndex l = .segment q := isSegment
            rw [stay notLater, states q qSmall, if_pos isHere]
          | succ i =>
            refine absurd ?_ (notLater i (by omega))
            rw [Nat.add_assoc, Nat.add_comm 1 i]
            exact isSegment
      · intro noneHere
        have notHere : table.logicalIndex l ≠ .segment q := noneHere 0 (by omega)
        rw [stay, states q qSmall, if_neg notHere]
        intro j small
        rw [Nat.add_assoc, Nat.add_comm 1 j]
        exact noneHere (j + 1) (by omega)

end Releasing

section Relocating

variable {info : Nat → SfsInfo} {table : Table} {head range tail : List LogicalEntry}
  {order : List Nat}

/-- The segments of the range and of what is around it are in the table, the ones around it in
their order, and all of them in state `ALLOCATED`. -/
def LosesNothing (head range tail : List LogicalEntry) (after : Table) : Prop :=
  ∃ entries moved, after.Holds entries ∧
    segments entries = segments head ++ moved ++ segments tail ∧
    moved.Perm (segments range) ∧ ∀ p ∈ segments entries, after.stateOf p = .allocated

def unusedCount (range : List LogicalEntry) : Nat := range.length - (segments range).length

/-- The number of entries that `memmove` is given when the tail moves to the front. -/
def movedCount (head range tail : List LogicalEntry) : Nat :=
  max (head ++ range ++ tail).length (head.length + range.length + 1)

/-- `memmove` reads inside of the table. -/
def MoveFits (head range tail : List LogicalEntry) : Prop :=
  head.length + range.length + movedCount head range tail ≤ maxLogicalCount

instance : Decidable (MoveFits head range tail) := inferInstanceAs (Decidable (_ ≤ _))

theorem length_psegArrayCopy (short : order.length ≤ range.length) :
    (psegArrayCopy range order).length = range.length := by
  rw [psegArrayCopy, List.length_append, List.length_map, List.length_replicate]
  omega

theorem segments_psegArrayCopy : segments (psegArrayCopy range order) = order := by
  rw [psegArrayCopy, segments_append, segments_map_segment, segments_replicate_notUse,
    List.append_nil]

theorem empty_not_mem_psegArrayCopy : .empty ∉ psegArrayCopy range order := by
  simp [psegArrayCopy]

theorem overwritten_holds (holds : table.Holds (head ++ range ++ tail))
    (sameLength : order.length = range.length) :
    Table.Holds { table with
      logicalIndex := overwritten table.logicalIndex head.length (psegArrayCopy range order) }
      (head ++ psegArrayCopy range order ++ tail) := by
  have copyLength := length_psegArrayCopy sameLength.le
  have noEmpty := holds.noEmpty
  have fits := holds.fits
  simp only [List.mem_append, not_or, List.length_append] at noEmpty fits
  refine ⟨?_, ?_, ?_⟩
  · simp only [List.mem_append, not_or]
    exact ⟨⟨noEmpty.1.1, empty_not_mem_psegArrayCopy⟩, noEmpty.2⟩
  · simp only [List.length_append, copyLength]
    omega
  · intro l inside
    simp only [overwritten, holds.entry l inside]
    rcases Nat.lt_or_ge l head.length with inHead | behind
    · rw [if_neg (by omega), List.append_assoc, List.append_assoc,
        List.getElem?_append_left inHead, List.getElem?_append_left inHead]
    · rw [if_pos behind, List.append_assoc, List.append_assoc,
        List.getElem?_append_right behind, List.getElem?_append_right behind]
      rcases Nat.lt_or_ge (l - head.length) range.length with inRange | behindRange
      · have isCopy : l - head.length < (psegArrayCopy range order).length := by omega
        rw [List.getElem?_append_left isCopy, List.getElem?_append_left inRange,
          List.getElem?_eq_getElem isCopy]
        rfl
      · rw [List.getElem?_eq_none (by omega), List.getElem?_append_right (by omega),
          List.getElem?_append_right (by omega), copyLength]
        rfl

theorem moved_holds (holds : table.Holds (head ++ range ++ tail))
    (sameLength : order.length = (segments range).length)
    (someUnused : (segments range).length < range.length)
    (fits : MoveFits head range tail) :
    Table.Holds { table with
      logicalIndex := overwritten
        (movedEntries table.logicalIndex (head.length + range.length)
          (head.length + (segments range).length) (movedCount head range tail))
        head.length (psegArrayCopy range order) }
      (head ++ psegArrayCopy range order ++ tail.drop (unusedCount range)) := by
  have copyLength : (psegArrayCopy range order).length = range.length :=
    length_psegArrayCopy (sameLength.trans_lt someUnused).le
  have noEmpty := holds.noEmpty
  have tableFits := holds.fits
  have unused : unusedCount range + (segments range).length = range.length :=
    Nat.sub_add_cancel someUnused.le
  have moved : (head ++ range ++ tail).length ≤ movedCount head range tail := le_max_left _ _
  rw [MoveFits] at fits
  generalize movedCount head range tail = lcount at fits moved
  generalize unusedCount range = unusedEntries at unused
  simp only [List.mem_append, not_or, List.length_append] at noEmpty tableFits moved
  refine ⟨?_, ?_, ?_⟩
  · simp only [List.mem_append, not_or]
    exact ⟨⟨noEmpty.1.1, empty_not_mem_psegArrayCopy⟩,
      fun member => noEmpty.2 (List.mem_of_mem_drop member)⟩
  · simp only [List.length_append, copyLength, List.length_drop]
    omega
  · intro l inside
    simp only [overwritten]
    rcases Nat.lt_or_ge l head.length with inHead | behind
    · rw [if_neg (by omega), movedEntries, if_neg (by omega), if_neg (by omega),
        if_neg (by omega), holds.entry l inside, List.append_assoc, List.append_assoc,
        List.getElem?_append_left inHead, List.getElem?_append_left inHead]
    · rw [if_pos behind, List.append_assoc, List.getElem?_append_right behind]
      rcases Nat.lt_or_ge (l - head.length) range.length with inRange | behindRange
      · rw [List.getElem?_append_left (by omega), List.getElem?_eq_getElem (by omega)]
        rfl
      · rw [List.getElem?_eq_none (by omega), List.getElem?_append_right (by omega), copyLength,
          List.getElem?_drop, Option.getD_none, movedEntries, if_neg (by omega)]
        by_cases emptied : head.length + (segments range).length + lcount ≤ l ∧
            l < head.length + range.length + lcount
        · rw [if_pos emptied, List.getElem?_eq_none (by omega)]
          rfl
        · rw [if_neg emptied]
          by_cases copied : head.length + (segments range).length ≤ l ∧
              l < head.length + (segments range).length + lcount
          · rw [if_pos copied, holds.entry _ (by omega), List.append_assoc,
              List.getElem?_append_right (by omega), List.getElem?_append_right (by omega)]
            congr 2
            omega
          · rw [if_neg copied, holds.entry l inside, List.getElem?_eq_none
              (by simp only [List.length_append]; omega), List.getElem?_eq_none (by omega)]

theorem logicalIndex_range (holds : table.Holds (head ++ range ++ tail)) {i : Nat}
    (inside : i < range.length) : table.logicalIndex (head.length + i) = range[i] := by
  have fits := holds.fits
  simp only [List.length_append] at fits
  rw [holds.entry _ (by omega), List.append_assoc, List.getElem?_append_right (by omega),
    Nat.add_sub_cancel_left, List.getElem?_append_left inside, List.getElem?_eq_getElem inside,
    Option.getD_some]

theorem realignLogicalSegment_eq (consistent : table.Consistent (head ++ range ++ tail))
    (sameLength : order.length = (segments range).length)
    (someUnused : (segments range).length < range.length) :
    ∃ released, Keeps table released ∧
      (∀ q < maxSectorCount * table.segmentCountInSector,
        (.segment q ∈ range.drop (segments range).length → released.stateOf q = .temp) ∧
        (.segment q ∉ range.drop (segments range).length →
          released.stateOf q = table.stateOf q)) ∧
      realignLogicalSegment table head.length (psegArrayCopy range order)
          (segments range).length =
        if MoveFits head range tail then
          some { released with
            logicalIndex := overwritten
              (movedEntries table.logicalIndex (head.length + range.length)
                (head.length + (segments range).length) (movedCount head range tail))
              head.length (psegArrayCopy range order) }
        else none := by
  have copyLength : (psegArrayCopy range order).length = range.length :=
    length_psegArrayCopy (sameLength.trans_lt someUnused).le
  have holds := consistent.holds
  have tableFits := holds.fits
  have entryAt : ∀ i < range.length - (segments range).length,
      (range.drop (segments range).length)[i]? =
        some (table.logicalIndex (head.length + (segments range).length + i)) := by
    intro i small
    rw [Nat.add_assoc, logicalIndex_range holds (by omega), List.getElem?_drop,
      List.getElem?_eq_getElem (by omega)]
  simp only [List.length_append] at tableFits
  obtain ⟨released, isReleased, keeps, states⟩ := @releaseEntries_spec table consistent.sized
    (range.length - (segments range).length) (head.length + (segments range).length) (by omega) (by
      intro i small p isSegment
      have isEntry := isSegment ▸ entryAt i small
      have inRange := List.mem_of_mem_drop (List.mem_of_getElem? isEntry)
      refine consistent.known p ?_
      rw [mem_segments, List.mem_append, List.mem_append]
      exact .inl (.inr inRange))
  refine ⟨released, keeps, ?_, ?_⟩
  · intro q small
    obtain ⟨become, stay⟩ := states q small
    constructor
    · intro member
      obtain ⟨i, isEntry⟩ := List.mem_iff_getElem?.mp member
      have inRange : i < range.length - (segments range).length := by
        obtain ⟨inside, -⟩ := List.getElem?_eq_some_iff.mp isEntry
        rwa [List.length_drop] at inside
      rw [entryAt i inRange] at isEntry
      exact become ⟨i, inRange, Option.some.inj isEntry⟩
    · intro notMember
      refine stay fun i inRange isSegment => notMember ?_
      rw [← isSegment]
      exact List.mem_of_getElem? (entryAt i inRange)
  · have first : firstEmpty table (maxLogicalCount - (head.length + range.length + 1))
        (head.length + range.length + 1) = movedCount head range tail := holds.firstEmpty_eq _
    have distance : head.length + range.length - (head.length + (segments range).length) =
        range.length - (segments range).length := by omega
    rw [realignLogicalSegment, copyLength, if_pos (by omega), tableMoveLogicalSegment,
      if_neg (by omega)]
    simp only [first, distance, isReleased, keeps.logicalIndex]
    by_cases fits : MoveFits head range tail
    · have both : head.length + range.length + movedCount head range tail ≤ maxLogicalCount ∧
          head.length + (segments range).length + movedCount head range tail ≤
            maxLogicalCount := by
        rw [MoveFits] at fits
        exact ⟨fits, by omega⟩
      rw [if_pos both, if_pos fits]
      dsimp only
      obtain ⟨after, overwrote⟩ := Option.isSome_iff_exists.mp
        (@overwriteEntries_isSome { released with
          logicalIndex := movedEntries table.logicalIndex (head.length + range.length)
            (head.length + (segments range).length) (movedCount head range tail) }
          head.length (psegArrayCopy range order) (by omega))
      rw [overwrote, overwriteEntries_eq_some overwrote]
    · have notBoth : ¬ (head.length + range.length + movedCount head range tail ≤
          maxLogicalCount ∧ head.length + (segments range).length +
            movedCount head range tail ≤ maxLogicalCount) := fun both => fits both.1
      rw [if_neg notBoth, if_neg fits]

/-- `__try_realign` decides by the ids of the segments that it moves, and when it returns
`REALIGN_TRUE` no segment is lost. -/
def RealignsSafely (info : Nat → SfsInfo) (table : Table) (head range tail : List LogicalEntry) :
    Prop :=
  (1 < (segments range).length → sortInput (segments range) (pinfoArray info range) =
      some ((segments range).map fun p => (p, info p))) ∧
    ∃ ret after, tryRealign info table range head.length = some (ret, after) ∧
      (ret = .realignTrue → LosesNothing head range tail after)

/-- The entries that are not used stand behind the segments, and the range stays as it is or
there are none, or what follows the range has room for the mistaken move. -/
def RealignCondition (info : Nat → SfsInfo) (head range tail : List LogicalEntry) : Prop :=
  UnusedLast range ∧
    (.notUse ∉ range ∨ ¬ Separable info (segments range) ∨
      ((segments range).IsChain fun first second =>
        ¬ above (first, info first) (second, info second)) ∨
      segments (tail.take (unusedCount range)) = [] ∧ MoveFits head range tail)

theorem losesNothing_unchanged (consistent : table.Consistent (head ++ range ++ tail)) :
    LosesNothing head range tail table :=
  ⟨_, segments range, consistent.holds, by simp, .refl _, consistent.allocated⟩

theorem length_segments_eq_iff (noEmpty : .empty ∉ range) :
    (segments range).length = range.length ↔ .notUse ∉ range := by
  induction range with
  | nil => simp [segments]
  | cons entry rest induction =>
    have restEmpty : .empty ∉ rest := fun member => noEmpty (List.mem_cons_of_mem _ member)
    have short := length_segments_le rest
    cases entry with
    | empty => simp at noEmpty
    | notUse =>
      simp only [segments, List.length_cons, List.mem_cons, true_or, not_true_eq_false,
        iff_false]
      omega
    | segment p => simp [segments, induction restEmpty]

theorem unusedLast_of_length_eq (noEmpty : .empty ∉ range)
    (allUsed : (segments range).length = range.length) : UnusedLast range := by
  induction range with
  | nil => rfl
  | cons entry rest induction =>
    have restEmpty : .empty ∉ rest := fun member => noEmpty (List.mem_cons_of_mem _ member)
    have short := length_segments_le rest
    cases entry with
    | empty => simp at noEmpty
    | notUse =>
      simp only [segments, List.length_cons] at allUsed
      omega
    | segment p =>
      exact unusedLast_segment_cons.mpr (induction restEmpty (Nat.succ.inj allUsed))

theorem mem_drop_of_not_unusedLast {p : Nat} (noEmpty : .empty ∉ range)
    (single : segments range = [p]) (notLast : ¬ UnusedLast range) :
    .segment p ∈ range.drop (segments range).length := by
  cases range with
  | nil => cases single
  | cons entry rest =>
    have restEmpty : .empty ∉ rest := fun member => noEmpty (List.mem_cons_of_mem _ member)
    rw [single]
    cases entry with
    | empty => simp at noEmpty
    | notUse =>
      have inRest : segments rest = [p] := single
      have isListed : p ∈ segments rest := inRest.symm ▸ List.mem_singleton_self p
      exact mem_segments.mp isListed
    | segment q =>
      have noneLeft : segments rest = [] := (List.cons.inj single).2
      exact absurd (unusedLast_segment_cons.mpr
        (unusedLast_of_segments_eq_nil restEmpty noneLeft)) notLast

theorem not_mem_drop_of_unusedLast (unusedLast : UnusedLast range) (q : Nat) :
    .segment q ∉ range.drop (segments range).length := by
  rw [unusedLast, segments_psegArrayCopy, psegArrayCopy]
  rw [List.drop_append_of_le_length (by simp), List.drop_eq_nil_of_le (by simp)]
  simp

theorem realignLogicalSegment_losesNothing
    (consistent : table.Consistent (head ++ range ++ tail)) (unusedLast : UnusedLast range)
    (perm : order.Perm (segments range)) :
    (∃ after, realignLogicalSegment table head.length (psegArrayCopy range order)
        (segments range).length = some after ∧ LosesNothing head range tail after) ↔
      .notUse ∉ range ∨ segments (tail.take (unusedCount range)) = [] ∧
        MoveFits head range tail := by
  have holds := consistent.holds
  have noEmpty : .empty ∉ range := fun member => holds.noEmpty (by simp [member])
  have fits := holds.fits
  simp only [List.length_append] at fits
  rcases (length_segments_le range).eq_or_lt with allUsed | someUnused
  · refine ⟨fun _ => .inl ((length_segments_eq_iff noEmpty).mp allUsed), fun _ => ?_⟩
    have sameLength := perm.length_eq.trans allUsed
    have copyLength := length_psegArrayCopy sameLength.le
    obtain ⟨after, overwrote⟩ := Option.isSome_iff_exists.mp
      (@overwriteEntries_isSome table head.length (psegArrayCopy range order) (by omega))
    refine ⟨after, ?_, ?_⟩
    · rw [realignLogicalSegment, copyLength, if_neg (fun differ => differ allUsed), overwrote]
    · rw [overwriteEntries_eq_some overwrote]
      refine ⟨_, order, overwritten_holds holds sameLength, ?_, perm, ?_⟩
      · rw [segments_append, segments_append, segments_psegArrayCopy]
      · intro p member
        refine consistent.allocated p ?_
        simp only [segments_append, segments_psegArrayCopy, List.mem_append] at member ⊢
        rwa [perm.mem_iff] at member
  · have isUnused : ¬ .notUse ∉ range :=
      fun unused => someUnused.ne ((length_segments_eq_iff noEmpty).mpr unused)
    obtain ⟨released, keeps, states, result⟩ :=
      realignLogicalSegment_eq consistent perm.length_eq someUnused
    rw [result]
    by_cases moveFits : MoveFits head range tail
    · have moved := moved_holds holds perm.length_eq someUnused moveFits
      have tailSegments : segments tail = segments (tail.take (unusedCount range)) ++
          segments (tail.drop (unusedCount range)) := by
        rw [← segments_append, List.take_append_drop]
      rw [if_pos moveFits]
      simp only [isUnused, moveFits, false_or, and_true]
      constructor
      · rintro ⟨_, ⟨⟩, entries, written, holdsAfter, isSegments, writtenPerm, -⟩
        have same : entries = _ :=
          holdsAfter.unique ⟨moved.noEmpty, moved.fits, moved.entry⟩
        have lengths := congrArg List.length isSegments
        have sameLength := perm.length_eq.trans writtenPerm.length_eq.symm
        rw [same, tailSegments] at lengths
        simp only [segments_append, segments_psegArrayCopy, List.length_append] at lengths
        exact List.eq_nil_of_length_eq_zero (by omega)
      · intro noneLost
        rw [noneLost, List.nil_append] at tailSegments
        refine ⟨_, rfl, _, order, ⟨moved.noEmpty, moved.fits, moved.entry⟩, ?_, perm, ?_⟩
        · rw [segments_append, segments_append, segments_psegArrayCopy, tailSegments]
        · intro p member
          have listed : p ∈ segments (head ++ range ++ tail) := by
            simp only [segments_append, segments_psegArrayCopy, List.mem_append, tailSegments]
              at member ⊢
            rwa [perm.mem_iff] at member
          have stays := (states p (consistent.known p listed)).2
            (not_mem_drop_of_unusedLast unusedLast p)
          exact stays.trans (consistent.allocated p listed)
    · rw [if_neg moveFits]
      simp [isUnused, moveFits]

theorem realignsSafely_of_unusedLast (consistent : table.Consistent (head ++ range ++ tail))
    (unusedLast : UnusedLast range) :
    RealignsSafely info table head range tail ↔ RealignCondition info head range tail := by
  have nodup : (segments range).Nodup := by
    have once := consistent.once
    rw [segments_append, segments_append] at once
    exact (List.nodup_append.mp (List.nodup_append.mp once).1).2.1
  have perm := sortedOrder_perm info (segments range)
  have written := realignLogicalSegment_losesNothing consistent unusedLast perm
  rw [RealignsSafely, RealignCondition, tryRealign_eq unusedLast,
    sortInput_of_unusedLast unusedLast]
  simp only [unusedLast, true_and, implies_true]
  by_cases separable : Separable info (segments range)
  · rw [if_pos separable, realignSegment]
    by_cases sameOrder : sortedOrder info (segments range) = segments range
    · have inPlace : range = psegArrayCopy range (segments range) := unusedLast
      rw [sameOrder, if_pos inPlace]
      have chain := (sortedOrder_eq_iff nodup).mp sameOrder
      exact ⟨fun _ => .inr (.inr (.inl chain)),
        fun _ => ⟨_, _, rfl, fun _ => losesNothing_unchanged consistent⟩⟩
    · have changed : range ≠ psegArrayCopy range (sortedOrder info (segments range)) := by
        intro same
        have sameSegments := congrArg segments same
        rw [segments_psegArrayCopy] at sameSegments
        exact sameOrder sameSegments.symm
      have notChain : ¬ (segments range).IsChain fun first second =>
          ¬ above (first, info first) (second, info second) :=
        fun chain => sameOrder ((sortedOrder_eq_iff nodup).mpr chain)
      rw [if_neg changed]
      simp only [separable, not_true_eq_false, false_or, notChain]
      rw [← written]
      constructor
      · rintro ⟨ret, after, result, safe⟩
        split at result
        · cases result
        · next isWritten =>
          cases result
          exact ⟨_, isWritten, safe rfl⟩
      · rintro ⟨after, isWritten, safe⟩
        exact ⟨.realignTrue, after, by rw [isWritten], fun _ => safe⟩
  · rw [if_neg separable]
    exact ⟨fun _ => .inr (.inl separable), fun _ => ⟨_, _, rfl, fun isTrue => by cases isTrue⟩⟩

theorem not_realignsSafely_of_not_unusedLast
    (consistent : table.Consistent (head ++ range ++ tail)) (notLast : ¬ UnusedLast range) :
    ¬ RealignsSafely info table head range tail := by
  have noEmpty : .empty ∉ range := fun member => consistent.holds.noEmpty (by simp [member])
  rintro ⟨ownInfos, ret, after, result, safe⟩
  have notInPlace : range ≠ psegArrayCopy range (segments range) := notLast
  have someUnused : (segments range).length < range.length :=
    (length_segments_le range).lt_of_ne fun allUsed =>
      notLast (unusedLast_of_length_eq noEmpty allUsed)
  rcases Nat.lt_or_ge 1 (segments range).length with several | short
  · exact notLast (unusedLast_of_sortInput noEmpty (ownInfos several))
  · have single : ∃ p, segments range = [p] := by
      refine List.length_eq_one_iff.mp (short.antisymm ?_)
      exact List.length_pos_iff.mpr fun isNil =>
        notLast (unusedLast_of_segments_eq_nil noEmpty isNil)
    obtain ⟨p, isSingle⟩ := single
    obtain ⟨released, keeps, states, isWritten⟩ :=
      @realignLogicalSegment_eq _ _ _ _ (segments range) consistent rfl someUnused
    rw [tryRealign, if_pos short, realignSegment, if_neg notInPlace, isWritten] at result
    split at result
    · cases result
    · next written isAfter =>
      cases result
      split at isAfter
      · cases isAfter
        obtain ⟨entries, moved, holdsAfter, isSegments, movedPerm, allocated⟩ := safe rfl
        have inRange : p ∈ segments range := by simp [isSingle]
        have listed : p ∈ segments (head ++ range ++ tail) := by simp [inRange]
        have isTemp := (states p (consistent.known p listed)).1
          (mem_drop_of_not_unusedLast noEmpty isSingle notLast)
        have isAllocated := allocated p (by
          rw [isSegments]
          simp [movedPerm.mem_iff.mpr inRange])
        exact absurd (isTemp.symm.trans isAllocated) (by decide)
      · cases isAfter

end Relocating

/-- A table of these entries, all segments in state `ALLOCATED`. -/
def listedTable (entries : List LogicalEntry) : Table :=
  { tableInit 4 with
    logicalIndex := fun l => (entries[l]?).getD .empty
    physicalSector := fun _ _ => .allocated }

theorem listedTable_consistent {entries : List LogicalEntry} (noEmpty : .empty ∉ entries)
    (fits : entries.length ≤ maxLogicalCount) (once : (segments entries).Nodup)
    (known : ∀ p ∈ segments entries, p < maxSectorCount * 4) :
    (listedTable entries).Consistent entries where
  holds := ⟨noEmpty, fits, fun _ _ => rfl⟩
  sized := show Sized 4 from ⟨by decide, by decide⟩
  once := once
  known := known
  allocated := fun _ _ => rfl

/-- Segment `p` holds one file. -/
def oneFile (p : Nat) : SfsInfo := ⟨p + 1, p + 1, le_rfl⟩

end Wisebot.Ifs
