import Mathlib.Data.Finset.Max
import Mathlib.Data.List.Chain
import Wisebot.Ifs.Table
import Wisebot.Lib.Swaps

namespace Wisebot.Ifs

open Wisebot.Lib

/-! The order that `__try_realign` of `modules/mod_ifs/mod_ifs_defrag.c` gives to the
segments of a logical range. -/

/-- The file ids of a segment, as far as the order depends on them. -/
structure SfsInfo where
  minFileId : Nat
  maxFileId : Nat
  ordered : minFileId ≤ maxFileId

/-- The ids of the files in a segment, both 0 where there are none. -/
def SfsInfo.ofFiles (files : Finset Nat) : SfsInfo :=
  if filled : files.Nonempty then
    ⟨files.min' filled, files.max' filled, files.min'_le _ (files.max'_mem filled)⟩
  else ⟨0, 0, le_rfl⟩

inductive RealignRet where
  | realignTrue
  | realignFalse
  deriving DecidableEq, Repr

/-- The entries that are segments, from the front of `pseg_array_copy`. -/
def segments : List LogicalEntry → List Nat
  | [] => []
  | .segment p :: rest => p :: segments rest
  | _ :: rest => segments rest

/-- `pinfo_array` is filled at the places of the segments in the input only. -/
def pinfoArray (info : Nat → SfsInfo) : List LogicalEntry → List (Option SfsInfo)
  | [] => []
  | .segment p :: rest => some (info p) :: pinfoArray info rest
  | _ :: rest => none :: pinfoArray info rest

/-- The entries of both arrays that the sort compares, each of them read. -/
def sortInput : List Nat → List (Option SfsInfo) → Option (List (Nat × SfsInfo))
  | [], _ => some []
  | _ :: _, [] => none
  | _ :: _, none :: _ => none
  | p :: rest, some info :: infos =>
    match sortInput rest infos with
    | none => none
    | some pairs => some ((p, info) :: pairs)

def above (first second : Nat × SfsInfo) : Prop := second.2.maxFileId < first.2.minFileId

instance : DecidableRel above := fun _ _ => inferInstanceAs (Decidable (_ < _))

def below (first second : Nat × SfsInfo) : Prop := first.2.maxFileId ≤ second.2.minFileId

instance : DecidableRel below := fun _ _ => inferInstanceAs (Decidable (_ ≤ _))

/-- Both arrays when they are sorted. -/
def sortSegments (info : Nat → SfsInfo) (psegArray : List LogicalEntry) :
    Option (List (Nat × SfsInfo)) :=
  match sortInput (segments psegArray) (pinfoArray info psegArray) with
  | none => none
  | some pairs => some (bubbleSort above pairs)

/-- The segments in `pseg_array_copy` when all is compared with the input. -/
def realignOrder (info : Nat → SfsInfo) (psegArray : List LogicalEntry) : Option (List Nat) :=
  if (segments psegArray).length ≤ 1 then some (segments psegArray)
  else
    match sortSegments info psegArray with
    | none => none
    | some sorted => some (sorted.map Prod.fst)

/-- `NOT_USE` fills `pseg_array_copy` from the end. -/
def psegArrayCopy (psegArray : List LogicalEntry) (order : List Nat) : List LogicalEntry :=
  order.map .segment ++ List.replicate (psegArray.length - order.length) .notUse

def overwriteEntries (table : Table) (l : Nat) : List LogicalEntry → Option Table
  | [] => some table
  | entry :: rest =>
    match tableOverwriteLogicalSegment table l entry with
    | none => none
    | some table => overwriteEntries table (l + 1) rest

/-- A failure of the move is only logged. -/
def realignLogicalSegment (table : Table) (lsegStart : Nat) (newPsegList : List LogicalEntry)
    (newPsegCount : Nat) : Option Table :=
  if newPsegCount ≠ newPsegList.length then
    match tableMoveLogicalSegment table (lsegStart + newPsegList.length)
      (lsegStart + newPsegCount) with
    | none => none
    | some (_, moved) => overwriteEntries moved lsegStart newPsegList
  else overwriteEntries table lsegStart newPsegList

/-- From the label `realign_segment` on. -/
def realignSegment (table : Table) (psegArray : List LogicalEntry) (lsegStart : Nat)
    (order : List Nat) : Option (RealignRet × Table) :=
  if psegArray = psegArrayCopy psegArray order then some (.realignTrue, table)
  else
    match realignLogicalSegment table lsegStart (psegArrayCopy psegArray order)
      (segments psegArray).length with
    | none => none
    | some table => some (.realignTrue, table)

/-- The lock is acquired; `info` is what `sfs_get_info` tells of a segment. -/
def tryRealign (info : Nat → SfsInfo) (table : Table) (psegArray : List LogicalEntry)
    (lsegStart : Nat) : Option (RealignRet × Table) :=
  if (segments psegArray).length ≤ 1 then
    realignSegment table psegArray lsegStart (segments psegArray)
  else
    match sortSegments info psegArray with
    | none => none
    | some sorted =>
      if sorted.IsChain below then
        realignSegment table psegArray lsegStart (sorted.map Prod.fst)
      else some (.realignFalse, table)

section Arrays

variable {info : Nat → SfsInfo} {psegArray : List LogicalEntry} {psegs : List Nat}

@[simp] theorem segments_map_segment (psegs : List Nat) :
    segments (psegs.map .segment) = psegs := by
  induction psegs with
  | nil => rfl
  | cons p rest induction => rw [List.map_cons, segments, induction]

@[simp] theorem segments_append (front back : List LogicalEntry) :
    segments (front ++ back) = segments front ++ segments back := by
  induction front with
  | nil => rfl
  | cons entry rest induction =>
    cases entry with
    | empty => exact induction
    | notUse => exact induction
    | segment p => exact congrArg (List.cons p) induction

@[simp] theorem segments_replicate_notUse (count : Nat) :
    segments (List.replicate count .notUse) = [] := by
  induction count with
  | zero => rfl
  | succ count induction => exact induction

theorem mem_segments {p : Nat} : p ∈ segments psegArray ↔ .segment p ∈ psegArray := by
  induction psegArray with
  | nil => simp [segments]
  | cons entry rest induction =>
    cases entry with
    | empty => simp [segments, induction]
    | notUse => simp [segments, induction]
    | segment q => simp [segments, induction]

theorem length_segments_le (psegArray : List LogicalEntry) :
    (segments psegArray).length ≤ psegArray.length := by
  induction psegArray with
  | nil => exact le_rfl
  | cons entry rest induction =>
    cases entry with
    | empty => exact Nat.le_succ_of_le induction
    | notUse => exact Nat.le_succ_of_le induction
    | segment p => exact Nat.succ_le_succ induction

def UnusedLast (psegArray : List LogicalEntry) : Prop :=
  psegArray = psegArrayCopy psegArray (segments psegArray)

instance (psegArray : List LogicalEntry) : Decidable (UnusedLast psegArray) :=
  inferInstanceAs (Decidable (psegArray = _))

theorem unusedLast_segment_cons {p : Nat} :
    UnusedLast (.segment p :: psegArray) ↔ UnusedLast psegArray := by
  simp only [UnusedLast, psegArrayCopy, segments, List.length_cons, List.map_cons,
    List.cons_append, Nat.add_sub_add_right, List.cons.injEq, true_and]

theorem unusedLast_map_segment (psegs : List Nat) : UnusedLast (psegs.map .segment) := by
  induction psegs with
  | nil => rfl
  | cons p rest induction => exact unusedLast_segment_cons.mpr induction

theorem unusedLast_of_segments_eq_nil (noEmpty : .empty ∉ psegArray)
    (none : segments psegArray = []) : UnusedLast psegArray := by
  rw [UnusedLast, none, psegArrayCopy]
  refine List.eq_replicate_of_mem fun entry member => ?_
  cases entry with
  | empty => exact absurd member noEmpty
  | notUse => rfl
  | segment p =>
    have isListed := mem_segments.mpr member
    rw [none] at isListed
    cases isListed

theorem sortInput_of_unusedLast (unusedLast : UnusedLast psegArray) :
    sortInput (segments psegArray) (pinfoArray info psegArray) =
      some ((segments psegArray).map fun p => (p, info p)) := by
  induction psegArray with
  | nil => rfl
  | cons entry rest induction =>
    cases entry with
    | segment p =>
      simp only [segments, pinfoArray, sortInput,
        induction (unusedLast_segment_cons.mp unusedLast), List.map_cons]
    | empty =>
      cases isSegments : segments rest with
      | nil => simp only [segments, isSegments, sortInput, List.map_nil]
      | cons p others =>
        simp only [UnusedLast, psegArrayCopy, segments, isSegments, List.map_cons,
          List.cons_append, List.cons.injEq, reduceCtorEq, false_and] at unusedLast
    | notUse =>
      cases isSegments : segments rest with
      | nil => simp only [segments, isSegments, sortInput, List.map_nil]
      | cons p others =>
        simp only [UnusedLast, psegArrayCopy, segments, isSegments, List.map_cons,
          List.cons_append, List.cons.injEq, reduceCtorEq, false_and] at unusedLast

theorem unusedLast_of_sortInput {pairs : List (Nat × SfsInfo)} (noEmpty : .empty ∉ psegArray)
    (isFilled : sortInput (segments psegArray) (pinfoArray info psegArray) = some pairs) :
    UnusedLast psegArray := by
  induction psegArray generalizing pairs with
  | nil => rfl
  | cons entry rest induction =>
    have restEmpty : .empty ∉ rest := fun member => noEmpty (List.mem_cons_of_mem _ member)
    cases entry with
    | empty => simp at noEmpty
    | segment p =>
      refine unusedLast_segment_cons.mpr ?_
      rw [segments, pinfoArray, sortInput] at isFilled
      split at isFilled
      · cases isFilled
      · next inner => exact induction restEmpty inner
    | notUse =>
      cases isSegments : segments rest with
      | nil => exact unusedLast_of_segments_eq_nil noEmpty isSegments
      | cons p others =>
        simp only [segments, isSegments, pinfoArray, sortInput, reduceCtorEq] at isFilled

end Arrays

section Order

variable {info : Nat → SfsInfo} {psegs order : List Nat}

theorem above_asymm (first second : Nat × SfsInfo) (isAbove : above first second) :
    ¬ above second first := by
  have firstOrdered := first.2.ordered
  have secondOrdered := second.2.ordered
  simp only [above] at isAbove ⊢
  omega

theorem below_of_above (first second : Nat × SfsInfo) (isAbove : above first second) :
    below second first := Nat.le_of_lt isAbove

theorem below_trans (first second third : Nat × SfsInfo) (left : below first second)
    (right : below second third) : below first third :=
  left.trans (second.2.ordered.trans right)

def sortedOrder (info : Nat → SfsInfo) (psegs : List Nat) : List Nat :=
  (bubbleSort above (psegs.map fun p => (p, info p))).map Prod.fst

theorem sorted_eq (info : Nat → SfsInfo) (psegs : List Nat) :
    bubbleSort above (psegs.map fun p => (p, info p)) =
      (sortedOrder info psegs).map fun p => (p, info p) := by
  rw [sortedOrder, List.map_map]
  refine (List.map_id _).symm.trans (List.map_congr_left fun pair member => ?_)
  have swaps : Swaps above (psegs.map fun p => (p, info p)) _ := bubbleSort_swaps _
  obtain ⟨p, -, rfl⟩ := List.mem_map.mp (swaps.perm.mem_iff.mp member)
  rfl

theorem sortedOrder_perm (info : Nat → SfsInfo) (psegs : List Nat) :
    (sortedOrder info psegs).Perm psegs := by
  have swaps : Swaps above (psegs.map fun p => (p, info p)) _ := bubbleSort_swaps _
  have perm := swaps.perm.map Prod.fst
  have same : (psegs.map fun p => (p, info p)).map Prod.fst = psegs :=
    List.map_map.trans (List.map_id psegs)
  rw [same] at perm
  exact perm

theorem sortedOrder_keeps {first second : Nat} (notAbove : ¬ above (first, info first)
    (second, info second)) (ordered : [first, second].Sublist psegs) :
    [first, second].Sublist (sortedOrder info psegs) := by
  have paired := ordered.map fun p => (p, info p)
  exact ((bubbleSort_swaps _).keeps notAbove paired).map Prod.fst

theorem sortedOrder_eq_iff (nodup : psegs.Nodup) :
    sortedOrder info psegs = psegs ↔
      psegs.IsChain fun first second => ¬ above (first, info first) (second, info second) := by
  have pairsNodup : (psegs.map fun p => (p, info p)).Nodup :=
    nodup.map fun _ _ same => congrArg Prod.fst same
  have sorts := bubbleSort_eq_iff above_asymm pairsNodup
  rw [List.isChain_map, sorted_eq] at sorts
  rw [← sorts]
  exact (List.map_injective_iff.mpr fun _ _ same => congrArg Prod.fst same).eq_iff.symm

/-- Every two segments have ids that can be put in order. -/
def Separable (info : Nat → SfsInfo) (psegs : List Nat) : Prop :=
  psegs.Pairwise fun first second =>
    below (first, info first) (second, info second) ∨ above (first, info first) (second, info second)

instance (info : Nat → SfsInfo) (psegs : List Nat) : Decidable (Separable info psegs) :=
  inferInstanceAs (Decidable (psegs.Pairwise _))

instance : IsTrans (Nat × SfsInfo) below := ⟨below_trans⟩

theorem sortedOrder_isChain_iff :
    ((sortedOrder info psegs).IsChain fun first second =>
        below (first, info first) (second, info second)) ↔ Separable info psegs := by
  have sorts := @bubbleSort_pairwise_iff _ above _ (psegs.map fun p => (p, info p)) below
    below_of_above below_trans
  rw [List.pairwise_map, ← List.isChain_iff_pairwise, sorted_eq, List.isChain_map] at sorts
  exact sorts

theorem ofFiles_not_above {files : Nat → Finset Nat} {first second id : Nat}
    (inFirst : id ∈ files first) (inSecond : id ∈ files second) :
    ¬ above (first, SfsInfo.ofFiles (files first)) (second, SfsInfo.ofFiles (files second)) := by
  have smallest : (SfsInfo.ofFiles (files first)).minFileId ≤ id := by
    rw [SfsInfo.ofFiles, dif_pos ⟨id, inFirst⟩]
    exact (files first).min'_le id inFirst
  have greatest : id ≤ (SfsInfo.ofFiles (files second)).maxFileId := by
    rw [SfsInfo.ofFiles, dif_pos ⟨id, inSecond⟩]
    exact (files second).le_max' id inSecond
  exact Nat.not_lt.mpr (smallest.trans greatest)

end Order

section Overwriting

variable {table after : Table} {l : Nat} {entries : List LogicalEntry}

def overwritten (logicalIndex : Nat → LogicalEntry) (l : Nat) (entries : List LogicalEntry) :
    Nat → LogicalEntry := fun k =>
  if l ≤ k then (entries[k - l]?).getD (logicalIndex k) else logicalIndex k

theorem overwritten_cons (logicalIndex : Nat → LogicalEntry) (l : Nat) (entry : LogicalEntry)
    (rest : List LogicalEntry) :
    overwritten (Function.update logicalIndex l entry) (l + 1) rest =
      overwritten logicalIndex l (entry :: rest) := by
  funext k
  simp only [overwritten]
  rcases Nat.lt_trichotomy k l with before | rfl | behind
  · rw [if_neg (by omega), if_neg (by omega), Function.update_of_ne (by omega)]
  · rw [if_neg (by omega), if_pos le_rfl, Function.update_self, Nat.sub_self]
    rfl
  · obtain ⟨distance, rfl⟩ := Nat.exists_eq_add_of_lt behind
    rw [if_pos (by omega), if_pos (by omega), Function.update_of_ne (by omega),
      show l + distance + 1 - (l + 1) = distance by omega,
      show l + distance + 1 - l = distance + 1 by omega, List.getElem?_cons_succ]

theorem overwriteEntries_eq_some (ran : overwriteEntries table l entries = some after) :
    after = { table with logicalIndex := overwritten table.logicalIndex l entries } := by
  induction entries generalizing table l with
  | nil =>
    cases ran
    have same : overwritten after.logicalIndex l [] = after.logicalIndex := by
      funext k
      simp [overwritten]
    rw [same]
  | cons entry rest induction =>
    rw [overwriteEntries, tableOverwriteLogicalSegment] at ran
    split at ran
    · cases ran
    · next written =>
      split at written
      · cases written
        rw [induction ran]
        simp only [Table.setLogical, overwritten_cons]
      · cases written

theorem overwriteEntries_isSome (room : l + entries.length ≤ maxLogicalCount) :
    (overwriteEntries table l entries).isSome := by
  induction entries generalizing table l with
  | nil => rfl
  | cons entry rest induction =>
    rw [List.length_cons] at room
    rw [overwriteEntries, tableOverwriteLogicalSegment, if_pos (by omega)]
    exact induction (by omega)

/-- The logical entries from `l` on. -/
def Lists (table : Table) (l : Nat) (entries : List LogicalEntry) : Prop :=
  ∀ i (inside : i < entries.length), table.logicalIndex (l + i) = entries[i]

theorem overwritten_lists (table : Table) (l : Nat) (entries : List LogicalEntry) :
    Lists { table with logicalIndex := overwritten table.logicalIndex l entries } l entries := by
  intro i inside
  simp only [overwritten, if_pos (Nat.le_add_right l i), Nat.add_sub_cancel_left,
    List.getElem?_eq_getElem inside, Option.getD_some]

end Overwriting

section Realigning

variable {info : Nat → SfsInfo} {table after : Table} {psegs : List Nat} {lsegStart : Nat}

theorem separable_of_length_le_one (short : psegs.length ≤ 1) :
    Separable info psegs ∧ sortedOrder info psegs = psegs := by
  match psegs with
  | [] => exact ⟨.nil, rfl⟩
  | [p] => exact ⟨List.pairwise_singleton _ p, rfl⟩
  | _ :: _ :: _ => simp at short

theorem realignOrder_eq (info : Nat → SfsInfo) (psegs : List Nat) :
    realignOrder info (psegs.map .segment) = some (sortedOrder info psegs) := by
  have filled := @sortInput_of_unusedLast info _ (unusedLast_map_segment psegs)
  rw [realignOrder, sortSegments, filled, segments_map_segment]
  by_cases short : psegs.length ≤ 1
  · rw [if_pos short, (separable_of_length_le_one short).2]
  · rw [if_neg short, sortedOrder]

theorem tryRealign_eq {psegArray : List LogicalEntry} (unusedLast : UnusedLast psegArray) :
    tryRealign info table psegArray lsegStart =
      if Separable info (segments psegArray) then
        realignSegment table psegArray lsegStart (sortedOrder info (segments psegArray))
      else some (.realignFalse, table) := by
  have filled := @sortInput_of_unusedLast info _ unusedLast
  rw [tryRealign, sortSegments, filled]
  by_cases short : (segments psegArray).length ≤ 1
  · obtain ⟨separable, same⟩ := @separable_of_length_le_one info _ short
    rw [if_pos short, if_pos separable, same]
  · rw [if_neg short]
    have decision := @sortedOrder_isChain_iff info (segments psegArray)
    rw [← List.isChain_map (fun p => (p, info p)), ← sorted_eq] at decision
    simp only [decision, sortedOrder]

theorem realignSegment_lists (lists : Lists table lsegStart (psegs.map .segment))
    {order : List Nat} {ret : RealignRet} (sameLength : order.length = psegs.length)
    (ran : realignSegment table (psegs.map .segment) lsegStart order = some (ret, after)) :
    Lists after lsegStart (order.map .segment) := by
  have copy : psegArrayCopy (psegs.map .segment) order = order.map .segment := by
    rw [psegArrayCopy, List.length_map, sameLength, Nat.sub_self, List.replicate_zero,
      List.append_nil]
  rw [realignSegment, copy, segments_map_segment, realignLogicalSegment] at ran
  split at ran
  · next same =>
    cases ran
    rw [← same]
    exact lists
  · split at ran
    · cases ran
    · next overwrote =>
      cases ran
      rw [if_neg (by rw [List.length_map, sameLength]; exact fun differ => differ rfl)]
        at overwrote
      rw [overwriteEntries_eq_some overwrote]
      exact overwritten_lists table lsegStart _

end Realigning

/-- The second segment goes in front of the first one, which has a file with the third one. -/
def threeSegments : Nat → Finset Nat
  | 1 => {5, 6}
  | 2 => {3}
  | _ => {6, 9}

end Wisebot.Ifs
