import Mathlib.Algebra.BigOperators.Group.List.Basic
import Mathlib.Data.List.Infix
import Mathlib.Data.Int.Order.Lemmas
import Wisebot.Lib.Folds
import Wisebot.Proximity.Operators

namespace Wisebot.Proximity

open Lib
open Indexer (StandardHit maxStdPosition)

/-! The shortest distance of two documents is small enough exactly when a pair of hits in a
common field is close enough. -/

def Comparable (field : BitVec 32) (hit1 hit2 : StandardHit) : Prop :=
  placed field hit1 = true ∧ placed field hit2 = true ∧ hit1.field = hit2.field

def HasPair (field : BitVec 32) (close : Nat → Nat → Prop) (dochits1 dochits2 : List DocHit) :
    Prop :=
  ∃ dochit1 ∈ dochits1, ∃ dochit2 ∈ dochits2, ∃ hit1 ∈ dochit1.counted,
    ∃ hit2 ∈ dochit2.counted, Comparable field hit1 hit2 ∧ close hit1.position hit2.position

theorem hasPair_iff {field : BitVec 32} {close : Nat → Nat → Prop}
    {dochits1 dochits2 : List DocHit} :
    HasPair field close dochits1 dochits2 ↔
      ∃ hit1 ∈ dochits1.flatMap DocHit.counted, ∃ hit2 ∈ dochits2.flatMap DocHit.counted,
        Comparable field hit1 hit2 ∧ close hit1.position hit2.position := by
  simp only [HasPair, List.mem_flatMap]
  constructor
  · rintro ⟨dochit1, member1, dochit2, member2, hit1, inside1, hit2, inside2, pair⟩
    exact ⟨hit1, ⟨dochit1, member1, inside1⟩, hit2, ⟨dochit2, member2, inside2⟩, pair⟩
  · rintro ⟨hit1, ⟨dochit1, member1, inside1⟩, hit2, ⟨dochit2, member2, inside2⟩, pair⟩
    exact ⟨dochit1, member1, dochit2, member2, hit1, inside1, hit2, inside2, pair⟩

def Follows (dist position1 position2 : Nat) : Prop :=
  position1 ≤ position2 ∧ position2 ≤ position1 + dist

def Near (dist position1 position2 : Nat) : Prop :=
  position1 ≤ position2 + dist ∧ position2 ≤ position1 + dist

section Distances

variable (field : BitVec 32) (dist : Nat)

theorem exists_comparable {close : Nat → Nat → Prop} {hits1 hits2 : List StandardHit} :
    (∃ hit1 ∈ hits1, placed field hit1 = true ∧ ∃ hit2 ∈ hits2,
        (placed field hit2 = true ∧ hit1.field = hit2.field) ∧
          close hit1.position hit2.position) ↔
      ∃ hit1 ∈ hits1, ∃ hit2 ∈ hits2, Comparable field hit1 hit2 ∧
        close hit1.position hit2.position := by
  constructor
  · rintro ⟨hit1, member1, placed1, hit2, member2, ⟨placed2, same⟩, isClose⟩
    exact ⟨hit1, member1, hit2, member2, ⟨placed1, placed2, same⟩, isClose⟩
  · rintro ⟨hit1, member1, hit2, member2, ⟨placed1, placed2, same⟩, isClose⟩
    exact ⟨hit1, member1, placed1, hit2, member2, ⟨placed2, same⟩, isClose⟩

theorem finds_ordered (hit1 : StandardHit) :
    Finds (fun _ => True) (· ≤ dist)
      (fun hit2 => (placed field hit2 = true ∧ hit1.field = hit2.field) ∧
        Follows dist hit1.position hit2.position)
      (orderedShortestDist field hit1) := by
  intro best hit2 _
  refine ⟨trivial, ?_⟩
  by_cases comparable : placed field hit2 = true ∧ hit1.field = hit2.field
  · simp only [orderedShortestDist, comparable, and_self, if_true, true_and, Follows]
    split
    case isTrue => omega
    case isFalse =>
      split <;> omega
  · simp only [orderedShortestDist, comparable, if_false, false_and, or_false]

variable {dist}

theorem getOrderedShortestDistWithADochit_le_iff (small : dist < int32Max)
    (dochit1 dochit2 : DocHit) :
    getOrderedShortestDistWithADochit field dochit1 dochit2 ≤ dist ↔
      ∃ hit1 ∈ dochit1.counted, ∃ hit2 ∈ dochit2.counted, Comparable field hit1 hit2 ∧
        Follows dist hit1.position hit2.position := by
  have finds := (Finds.nested (finds_ordered field dist) dochit2.counted).guarded (placed field)
  have found := (finds.foldl dochit1.counted int32Max trivial).2
  have large : ¬ int32Max ≤ dist := Nat.not_le.mpr small
  rw [getOrderedShortestDistWithADochit]
  rw [found, or_iff_right large]
  exact exists_comparable field

theorem getOrderedShortestDist_le_iff (small : dist < int32Max) (dochits1 dochits2 : List DocHit) :
    getOrderedShortestDist field dochits1 dochits2 ≤ dist ↔
      HasPair field (Follows dist) dochits1 dochits2 := by
  have finds := Finds.nested (fun dochit1 => finds_min
    (getOrderedShortestDistWithADochit_le_iff field small dochit1)) dochits2
  have found := (finds.foldl dochits1 int32Max trivial).2
  have large : ¬ int32Max ≤ dist := Nat.not_le.mpr small
  rw [getOrderedShortestDist]
  rw [found, or_iff_right large]
  rfl

variable (dist) in
theorem finds_abs (hit1 : StandardHit) :
    Finds (fun best => best.1.natAbs ≤ dist ↔ best.2 ≤ dist) (fun best => best.2 ≤ dist)
      (fun hit2 => (placed field hit2 = true ∧ hit1.field = hit2.field) ∧
        Near dist hit1.position hit2.position)
      (shortestDist field hit1) := by
  intro best hit2 start
  by_cases comparable : placed field hit2 = true ∧ hit1.field = hit2.field
  · simp only [shortestDist, comparable, and_self, if_true, true_and, Near]
    split
    case isTrue closer =>
      refine ⟨Iff.rfl, ?_⟩
      simp only
      omega
    case isFalse => exact ⟨start, by omega⟩
  · simp only [shortestDist, comparable, if_false, false_and, or_false]
    exact ⟨start, trivial⟩

theorem natAbs_getShortestDistWithADochit_le_iff (small : dist < int32Max)
    (dochit1 dochit2 : DocHit) :
    (getShortestDistWithADochit field dochit1 dochit2).natAbs ≤ dist ↔
      ∃ hit1 ∈ dochit1.counted, ∃ hit2 ∈ dochit2.counted, Comparable field hit1 hit2 ∧
        Near dist hit1.position hit2.position := by
  have larger : int32Max ≤ uint32Max := by decide
  have finds := (Finds.nested (finds_abs field dist) dochit2.counted).guarded (placed field)
  obtain ⟨kept, found⟩ := finds.foldl dochit1.counted ((int32Max : Int), uint32Max)
    (by simp only [Int.natAbs_natCast]; omega)
  have large : ¬ uint32Max ≤ dist := by omega
  rw [getShortestDistWithADochit]
  rw [kept, found, or_iff_right large]
  exact exists_comparable field

theorem getAbsShortestDist_le_iff (small : dist < int32Max) (dochits1 dochits2 : List DocHit) :
    getAbsShortestDist field dochits1 dochits2 ≤ dist ↔
      HasPair field (Near dist) dochits1 dochits2 := by
  have larger : int32Max ≤ uint32Max := by decide
  have finds := Finds.nested (fun dochit1 => finds_min
    (natAbs_getShortestDistWithADochit_le_iff field small dochit1)) dochits2
  have found := (finds.foldl dochits1 uint32Max trivial).2
  have large : ¬ uint32Max ≤ dist := by omega
  rw [getAbsShortestDist]
  rw [found, or_iff_right large]
  rfl

end Distances

theorem isWithinOrderedDist_iff {hit1 hit2 : StandardHit} {dist : Nat}
    (known1 : hit1.position < maxStdPosition) (known2 : hit2.position < maxStdPosition) :
    isWithinOrderedDist hit1 hit2 dist = true ↔
      hit1.field = hit2.field ∧ Follows dist hit1.position hit2.position := by
  unfold isWithinOrderedDist Follows
  grind

theorem isWithinDist_iff {hit1 hit2 : StandardHit} {dist : Nat}
    (known1 : hit1.position < maxStdPosition) (known2 : hit2.position < maxStdPosition) :
    isWithinDist hit1 hit2 dist = true ↔
      hit1.field = hit2.field ∧ Near dist hit1.position hit2.position := by
  unfold isWithinDist Near
  grind

open Indexer (StandardHit Build Fault)

/-! What the cursors over the hits of two documents enumerate, and how the pairs are packed
into the entries of the result. -/

/-- An entry with one to `STD_HITS_LEN` hits. -/
structure Sound (build : Build) (dochit : DocHit) : Prop where
  positive : 1 ≤ dochit.nhits
  bounded : dochit.nhits ≤ build.stdHitsLen
  room : dochit.hits.length = build.stdHitsLen

def hitsOf (entries : List Entry) : List StandardHit :=
  entries.flatMap fun entry => entry.dochit.counted

@[simp] theorem hitsOf_cons (entry : Entry) (entries : List Entry) :
    hitsOf (entry :: entries) = entry.dochit.counted ++ hitsOf entries := rfl

@[simp] theorem hitsOf_append (first second : List Entry) :
    hitsOf (first ++ second) = hitsOf first ++ hitsOf second :=
  List.flatMap_append

variable {build : Build}

theorem Sound.length_counted {dochit : DocHit} (sound : Sound build dochit) :
    dochit.counted.length = dochit.nhits := by
  rw [DocHit.counted, List.length_take_of_le (sound.room ▸ sound.bounded)]

theorem hitsOf_ne_nil {entries : List Entry} (sound : ∀ entry ∈ entries, Sound build entry.dochit)
    (nonempty : entries ≠ []) : hitsOf entries ≠ [] := by
  obtain ⟨entry, rest, rfl⟩ := List.exists_cons_of_ne_nil nonempty
  have first := sound entry List.mem_cons_self
  have length := first.length_counted
  have positive := first.positive
  intro none
  rw [hitsOf_cons, List.append_eq_nil_iff] at none
  rw [none.1, List.length_nil] at length
  omega

/-- The hits that `get_next_hit` still returns. -/
def IndexDocument.ahead (doc : IndexDocument) : List StandardHit :=
  match doc.dochits.drop doc.dochitIdx with
  | [] => []
  | current :: later => current.dochit.counted.drop doc.hitIdx ++ hitsOf later

structure IndexDocument.Ready (build : Build) (doc : IndexDocument) : Prop where
  sound : ∀ entry ∈ doc.dochits, Sound build entry.dochit
  inside : ∃ before current later, doc.dochits = before ++ current :: later ∧
    doc.dochitIdx = before.length ∧ doc.hitIdx ≤ current.dochit.nhits

theorem ahead_of_split {before later : List Entry} {current : Entry} {hitIdx : Nat} :
    IndexDocument.ahead ⟨before ++ current :: later, before.length, hitIdx⟩ =
      current.dochit.counted.drop hitIdx ++ hitsOf later := by
  rw [IndexDocument.ahead]
  simp only [List.drop_left]

theorem getNextHit_spec {doc : IndexDocument} (ready : doc.Ready build) :
    (doc.ahead = [] ∧ ∃ after, getNextHit doc = .ok (none, after)) ∨
      ∃ hit rest after, doc.ahead = hit :: rest ∧ getNextHit doc = .ok (some hit, after) ∧
        after.Ready build ∧ after.ahead = rest := by
  obtain ⟨dochits, dochitIdx, hitIdx⟩ := doc
  obtain ⟨sound, before, current, later, rfl, rfl, inside⟩ := ready
  have currentSound := sound current (by simp)
  have length := currentSound.length_counted
  rw [ahead_of_split]
  simp only [getNextHit, List.getElem?_append_right (Nat.le_refl _), Nat.sub_self,
    List.getElem?_cons_zero]
  by_cases more : hitIdx < current.dochit.nhits
  · -- the current entry has another hit
    have found : hitIdx < current.dochit.counted.length := by omega
    have place : current.dochit.hits[hitIdx]? = some current.dochit.counted[hitIdx] := by
      rw [← List.getElem?_eq_getElem found, DocHit.counted, List.getElem?_take_of_lt more]
    refine .inr ⟨current.dochit.counted[hitIdx], current.dochit.counted.drop (hitIdx + 1) ++
      hitsOf later, ⟨before ++ current :: later, before.length, hitIdx + 1⟩, ?_, ?_, ?_,
      ahead_of_split⟩
    · rw [List.drop_eq_getElem_cons found, List.cons_append]
    · rw [if_neg (by omega)]
      simp only [List.getElem?_append_right (Nat.le_refl _), Nat.sub_self,
        List.getElem?_cons_zero, place]
    · exact ⟨sound, before, current, later, rfl, rfl, more⟩
  · rw [if_pos (by omega), List.drop_eq_nil_of_le (by omega), List.nil_append]
    cases later with
    | nil =>
      refine .inl ⟨rfl, ⟨before ++ [current], before.length + 1, 0⟩, ?_⟩
      rw [List.getElem?_eq_none (by simp)]
    | cons next later =>
      have nextSound := sound next (by simp)
      have nextLength := nextSound.length_counted
      have positive := nextSound.positive
      have found : 0 < next.dochit.counted.length := by omega
      have place : next.dochit.hits[0]? = some next.dochit.counted[0] := by
        rw [← List.getElem?_eq_getElem found, DocHit.counted,
          List.getElem?_take_of_lt (by omega)]
      have moved : before ++ current :: next :: later = before ++ [current] ++ next :: later := by
        simp
      have count : before.length + 1 = (before ++ [current]).length := by simp
      refine .inr ⟨next.dochit.counted[0], next.dochit.counted.drop 1 ++ hitsOf later,
        ⟨before ++ current :: next :: later, before.length + 1, 1⟩, ?_, ?_, ?_, ?_⟩
      · have whole : next.dochit.counted = next.dochit.counted[0] :: next.dochit.counted.drop 1 := by
          rw [← List.drop_eq_getElem_cons found, List.drop_zero]
        rw [hitsOf_cons]
        conv_lhs => rw [whole]
        rw [List.cons_append]
      · have second : (before ++ current :: next :: later)[before.length + 1]? = some next := by
          rw [moved, count, List.getElem?_append_right (Nat.le_refl _), Nat.sub_self,
            List.getElem?_cons_zero]
        simp only [second, place]
      · exact ⟨sound, before ++ [current], next, later, moved, count, positive⟩
      · rw [moved, count]
        exact ahead_of_split

theorem length_ahead_lt {doc : IndexDocument} (ready : doc.Ready build) :
    doc.ahead.length < turns doc := by
  obtain ⟨dochits, dochitIdx, hitIdx⟩ := doc
  obtain ⟨sound, before, current, later, rfl, rfl, _⟩ := ready
  have lengths : ∀ entries : List Entry,
      (hitsOf entries).length ≤ (entries.map fun entry => entry.dochit.nhits).sum := by
    intro entries
    induction entries with
    | nil => exact Nat.le_refl 0
    | cons entry entries ih =>
      have first : entry.dochit.counted.length ≤ entry.dochit.nhits := List.length_take_le _ _
      rw [hitsOf_cons, List.length_append, List.map_cons, List.sum_cons]
      omega
  have some := lengths (before ++ current :: later)
  rw [hitsOf_append, hitsOf_cons, List.length_append, List.length_append] at some
  rw [ahead_of_split, turns, List.length_append, List.length_drop]
  simp only
  omega

def pairsWith (operation : Operation) (dist : Nat) (hits1 : List StandardHit)
    (hit2 : StandardHit) : List StandardHit :=
  (hits1.filter fun hit1 => operation.isClose hit1 hit2 dist).map fun hit1 =>
    operation.kept hit1 hit2

/-- The hits that the pairs of two documents leave, in the order they are found. -/
def pairs (operation : Operation) (dist : Nat) (hits1 hits2 : List StandardHit) :
    List StandardHit :=
  hits2.flatMap (pairsWith operation dist hits1)

/-- A result document of `nelm` entries that holds the hits found so far. -/
structure Filled (build : Build) (docid nelm : Nat) (found : List StandardHit)
    (result : Filling) : Prop where
  length : result.dochits.length = nelm
  room : ∀ entry ∈ result.dochits, entry.dochit.hits.length = build.stdHitsLen
  count : ∀ index entry, result.dochits[index]? = some entry → entry.dochit.nhits =
    if index < result.dochitIdx then build.stdHitsLen
    else if index = result.dochitIdx then result.hitIdx else 0
  ids : ∀ entry ∈ result.dochits, 0 < entry.dochit.nhits → entry.dochit.id = docid
  hitIdx_le : result.hitIdx ≤ build.stdHitsLen
  hits_eq : hitsOf result.dochits = found
  total : found.length = result.dochitIdx * build.stdHitsLen + result.hitIdx

theorem hitsOf_blank {entries : List Entry} (blank : ∀ entry ∈ entries, entry.dochit.nhits = 0) :
    hitsOf entries = [] := by
  rw [hitsOf, List.flatMap_eq_nil_iff]
  intro entry member
  rw [DocHit.counted, blank entry member, List.take_zero]

theorem Filled.blank {docid nelm : Nat} {found : List StandardHit} {result : Filling}
    (filled : Filled build docid nelm found result) (count : Nat)
    (behind : ∀ index, count ≤ index → index < nelm → result.dochitIdx < index ∨
      result.dochitIdx = index ∧ result.hitIdx = 0) :
    hitsOf (result.dochits.drop count) = [] := by
  apply hitsOf_blank
  intro entry member
  obtain ⟨index, bound, rfl⟩ := List.mem_iff_getElem.mp member
  rw [List.length_drop, filled.length] at bound
  have length := filled.length
  have place : result.dochits[count + index]? = some (result.dochits.drop count)[index] := by
    rw [List.getElem_drop, List.getElem?_eq_getElem (by omega)]
  rw [filled.count _ _ place]
  have far := behind (count + index) (by omega) (by omega)
  rw [if_neg (by omega)]
  split <;> omega

theorem counted_addHit (dochit : DocHit) (docid hitIdx : Nat) (field : BitVec 32)
    (kept : StandardHit) (count : dochit.nhits = hitIdx) (room : hitIdx < dochit.hits.length) :
    DocHit.counted { dochit with
      id := docid
      field := field
      nhits := dochit.nhits + 1
      hits := dochit.hits.set hitIdx kept } = dochit.counted ++ [kept] := by
  subst count
  rw [DocHit.counted, DocHit.counted, List.take_add_one, List.take_set_of_le (Nat.le_refl _),
    List.getElem?_set_self room]
  rfl

theorem Filled.set {docid nelm : Nat} {found : List StandardHit} {result : Filling}
    (filled : Filled build docid nelm found result) (open' : result.hitIdx < build.stdHitsLen)
    {old new : Entry} (current : result.dochits[result.dochitIdx]? = some old)
    {kept : StandardHit} (id : new.dochit.id = docid) (nhits : new.dochit.nhits = result.hitIdx + 1)
    (room : new.dochit.hits.length = build.stdHitsLen)
    (counted : new.dochit.counted = old.dochit.counted ++ [kept]) :
    Filled build docid nelm (found ++ [kept])
      { result with
        dochits := result.dochits.set result.dochitIdx new
        hitIdx := result.hitIdx + 1 } := by
  obtain ⟨inside, oldEq⟩ := List.getElem?_eq_some_iff.mp current
  refine ⟨?_, ?_, ?_, ?_, open', ?_, ?_⟩
  · rw [List.length_set, filled.length]
  · intro entry member
    rcases List.mem_or_eq_of_mem_set member with before | rfl
    · exact filled.room entry before
    · exact room
  · intro index entry place
    simp only at place ⊢
    rw [List.getElem?_set] at place
    by_cases same : result.dochitIdx = index
    · rw [if_pos same, if_pos (same ▸ inside)] at place
      cases place
      rw [nhits, if_neg (by omega), if_pos same.symm]
    · rw [if_neg same] at place
      have before := filled.count index entry place
      rw [if_neg (Ne.symm same)] at before ⊢
      exact before
  · intro entry member positive
    rcases List.mem_or_eq_of_mem_set member with before | rfl
    · exact filled.ids entry before positive
    · exact id
  · have blank := filled.blank (result.dochitIdx + 1) fun index far _ => .inl far
    have split : hitsOf result.dochits =
        hitsOf (result.dochits.take result.dochitIdx) ++ old.dochit.counted := by
      conv_lhs => rw [← List.take_append_drop result.dochitIdx result.dochits]
      rw [List.drop_eq_getElem_cons inside, hitsOf_append, hitsOf_cons, blank, List.append_nil,
        oldEq]
    rw [← filled.hits_eq, split, List.set_eq_take_append_cons_drop, if_pos inside, hitsOf_append,
      hitsOf_cons, blank, counted, List.append_nil, List.append_assoc]
  · have total := filled.total
    rw [List.length_append, total, List.length_singleton, Nat.add_assoc]

theorem Filled.nextEntry {docid nelm : Nat} {found : List StandardHit} {result : Filling}
    (filled : Filled build docid nelm found result) :
    Filled build docid nelm found (nextEntry build result) ∧
      (nextEntry build result).hitIdx < build.stdHitsLen := by
  have positive := build.stdHitsLen_pos
  have le := filled.hitIdx_le
  have total := filled.total
  unfold Proximity.nextEntry
  split
  case isFalse notFull => exact ⟨filled, Nat.lt_of_not_le notFull⟩
  case isTrue isFull =>
    refine ⟨{ filled with count := ?_, hitIdx_le := Nat.zero_le _, total := ?_ }, positive⟩
    · intro index entry place
      have before := filled.count index entry place
      simp only at before ⊢
      split at before
      case isTrue early => rw [if_pos (by omega), before]
      case isFalse late =>
        split at before
        case isTrue same => rw [if_pos (by omega)]; omega
        case isFalse other => rw [if_neg (by omega), before, ite_self]
    · rw [total]
      simp only [Nat.add_mul]
      omega

theorem addHit_spec {docid nelm : Nat} {found : List StandardHit} {result : Filling}
    (filled : Filled build docid nelm found result) (open' : result.hitIdx < build.stdHitsLen)
    (within : result.dochitIdx < nelm) (hit2 kept : StandardHit) (relevance : BitVec 32) :
    ∃ after, addHit docid hit2 kept relevance result = .ok after ∧
      Filled build docid nelm (found ++ [kept]) after := by
  have inside : result.dochitIdx < result.dochits.length := by rwa [filled.length]
  have current := List.getElem?_eq_getElem inside
  have room := filled.room _ (List.getElem_mem inside)
  have nhits := filled.count _ _ current
  rw [if_neg (Nat.lt_irrefl _), if_pos rfl] at nhits
  rw [addHit, current]
  simp only [if_neg (Nat.not_le.mpr (room ▸ open'))]
  refine ⟨_, rfl, filled.set open' current rfl ?_ ?_ ?_⟩
  · simp only [nhits]
  · simp only [List.length_set, room]
  · exact counted_addHit _ _ _ _ _ nhits (room ▸ open')

section Loops

variable {operation : Operation} {dist docid nelm : Nat}

theorem addPair_spec {found : List StandardHit} {result : Filling}
    (filled : Filled build docid nelm found result) (open' : result.hitIdx < build.stdHitsLen)
    (within : result.dochitIdx < nelm) (hit1 hit2 : StandardHit) (relevance : BitVec 32) :
    ∃ turn, addPair operation dist docid hit1 hit2 relevance result = .ok turn ∧
      Filled build docid nelm (found ++ pairsWith operation dist [hit1] hit2) turn := by
  rw [addPair, pairsWith]
  cases isClose : operation.isClose hit1 hit2 dist with
  | true =>
    simp only [isClose, if_true, List.filter_cons_of_pos, List.filter_nil, List.map_cons,
      List.map_nil]
    exact addHit_spec filled open' within _ _ _
  | false =>
    refine ⟨result, rfl, ?_⟩
    rw [List.filter_cons_of_neg (by simp [isClose]), List.filter_nil, List.map_nil,
      List.append_nil]
    exact filled

theorem innerLoop_spec (hit2 : StandardHit) (relevance2 : BitVec 32) {fuel : Nat}
    {doc1 : IndexDocument} (ready : doc1.Ready build) (enough : doc1.ahead.length < fuel)
    {found : List StandardHit} {result : Filling}
    (filled : Filled build docid nelm found result) (open' : result.hitIdx < build.stdHitsLen)
    (within : result.dochitIdx < nelm) :
    ∃ after full taken,
      innerLoop build operation dist docid hit2 relevance2 fuel doc1 result = .ok (after, full) ∧
      Filled build docid nelm (found ++ taken) after ∧ after.hitIdx < build.stdHitsLen ∧
      taken <+: pairsWith operation dist doc1.ahead hit2 ∧
      (full = false → taken = pairsWith operation dist doc1.ahead hit2 ∧
        after.dochitIdx < nelm) ∧
      (full = true → nelm ≤ after.dochitIdx) := by
  induction fuel generalizing doc1 found result with
  | zero => omega
  | succ fuel induction =>
    rw [innerLoop]
    rcases getNextHit_spec ready with ⟨none, last, next⟩ |
      ⟨hit1, rest, next, ahead, nextHit, nextReady, nextAhead⟩
    · refine ⟨result, false, [], by rw [next]; rfl, by rwa [List.append_nil], open',
        List.nil_prefix, fun _ => ⟨by rw [none]; rfl, within⟩, by simp⟩
    · obtain ⟨turn, turning, turnFilled⟩ := @addPair_spec _ operation dist _ _ _ _ filled open'
        within hit1 hit2 (relevance2 + currentRelevance next)
      obtain ⟨nextFilled, nextOpen⟩ := turnFilled.nextEntry
      have first : pairsWith operation dist (hit1 :: rest) hit2 =
          pairsWith operation dist [hit1] hit2 ++ pairsWith operation dist rest hit2 := by
        rw [pairsWith, pairsWith, pairsWith, ← List.map_append, ← List.filter_append,
          List.singleton_append]
      rw [nextHit, ahead, first]
      simp only [bind, Except.bind, turning, nextFilled.length]
      by_cases full : nelm ≤ (nextEntry build turn).dochitIdx
      · rw [if_pos full]
        exact ⟨_, true, _, rfl, nextFilled, nextOpen, List.prefix_append _ _, by simp,
          fun _ => full⟩
      · rw [if_neg full]
        rw [ahead, List.length_cons] at enough
        obtain ⟨after, isFull, taken, looping, afterFilled, afterOpen, isPrefix, done, stopped⟩ :=
          induction nextReady (by rw [nextAhead]; omega) nextFilled nextOpen
            (Nat.lt_of_not_le full)
        rw [nextAhead] at isPrefix done
        refine ⟨after, isFull, _, looping, by rwa [List.append_assoc] at afterFilled, afterOpen,
          (List.prefix_append_right_inj _).mpr isPrefix, fun notFull => ?_, stopped⟩
        exact ⟨by rw [(done notFull).1], (done notFull).2⟩

structure Written (build : Build) (docid nelm : Nat) (found : List StandardHit)
    (entries : List Entry) : Prop where
  ids : ∀ entry ∈ entries, entry.dochit.id = docid
  sound : ∀ entry ∈ entries, Sound build entry.dochit
  hits_eq : hitsOf entries = found
  few : entries.length ≤ nelm

theorem Filled.written {found : List StandardHit} {result : Filling}
    (filled : Filled build docid nelm found result) (count : Nat)
    (used : ∀ index < count, index < result.dochitIdx ∨
      index = result.dochitIdx ∧ result.hitIdx ≠ 0)
    (behind : ∀ index, count ≤ index → index < nelm → result.dochitIdx < index ∨
      result.dochitIdx = index ∧ result.hitIdx = 0) :
    Written build docid nelm found (result.dochits.take count) := by
  have length := filled.length
  have positive := build.stdHitsLen_pos
  have counts : ∀ entry ∈ result.dochits.take count, 1 ≤ entry.dochit.nhits ∧
      entry.dochit.nhits ≤ build.stdHitsLen := by
    intro entry member
    obtain ⟨index, bound, rfl⟩ := List.mem_iff_getElem.mp member
    rw [List.length_take] at bound
    have place : result.dochits[index]? = some (result.dochits.take count)[index] := by
      rw [List.getElem_take, List.getElem?_eq_getElem]
    have le := filled.hitIdx_le
    rw [filled.count _ _ place]
    rcases used index (by omega) with early | ⟨same, some⟩
    · rw [if_pos early]
      exact ⟨positive, Nat.le_refl _⟩
    · rw [if_neg (by omega), if_pos same]
      exact ⟨by omega, le⟩
  refine ⟨?_, ?_, ?_, ?_⟩
  · intro entry member
    exact filled.ids entry (List.mem_of_mem_take member) (counts entry member).1
  · intro entry member
    exact ⟨(counts entry member).1, (counts entry member).2,
      filled.room entry (List.mem_of_mem_take member)⟩
  · have all := filled.hits_eq
    rw [← List.take_append_drop count result.dochits, hitsOf_append, filled.blank count behind,
      List.append_nil] at all
    exact all
  · rw [← filled.length]
    exact List.length_take_le' _ _

theorem outerLoop_spec {doc1 : IndexDocument} (ready1 : (setIdxToFirstHit doc1).Ready build)
    {fuel : Nat} {doc2 : IndexDocument} (ready2 : doc2.Ready build)
    (enough : doc2.ahead.length < fuel) {found : List StandardHit} {result : Filling}
    (filled : Filled build docid nelm found result) (open' : result.hitIdx < build.stdHitsLen)
    (within : result.dochitIdx < nelm) :
    ∃ entries taken, outerLoop build operation dist docid doc1 fuel doc2 result = .ok entries ∧
      Written build docid nelm (found ++ taken) entries ∧
      taken <+: pairs operation dist (setIdxToFirstHit doc1).ahead doc2.ahead ∧
      (taken = pairs operation dist (setIdxToFirstHit doc1).ahead doc2.ahead ∨
        entries.length = nelm ∧ nelm * build.stdHitsLen ≤ (found ++ taken).length) := by
  induction fuel generalizing doc2 found result with
  | zero => omega
  | succ fuel induction =>
    rw [outerLoop]
    rcases getNextHit_spec ready2 with ⟨none, last, next⟩ |
      ⟨hit2, rest, next, ahead, nextHit, nextReady, nextAhead⟩
    · have written := filled.written
        (if result.hitIdx ≠ 0 then result.dochitIdx + 1 else result.dochitIdx)
        (by intro index; split <;> omega) (by intro index; split <;> omega)
      refine ⟨_, [], by rw [next]; rfl, ?_, List.nil_prefix, .inl ?_⟩
      · rwa [List.append_nil]
      · rw [none]
        rfl
    · have lengthAhead : (setIdxToFirstHit doc1).ahead.length < turns doc1 :=
        length_ahead_lt ready1
      obtain ⟨after, isFull, taken, looping, afterFilled, afterOpen, isPrefix, done, stopped⟩ :=
        @innerLoop_spec _ operation dist _ _ hit2 (currentRelevance next) _ _ ready1
          lengthAhead _ _ filled open' within
      have first : pairs operation dist (setIdxToFirstHit doc1).ahead (hit2 :: rest) =
          pairsWith operation dist (setIdxToFirstHit doc1).ahead hit2 ++
            pairs operation dist (setIdxToFirstHit doc1).ahead rest :=
        List.flatMap_cons
      rw [nextHit, ahead, first]
      simp only [bind, Except.bind, looping]
      cases isFull with
      | true =>
        have large := stopped rfl
        have whole : after.dochits.take after.dochitIdx = after.dochits :=
          List.take_of_length_le (by rw [afterFilled.length]; exact large)
        have total := afterFilled.total
        refine ⟨_, taken, rfl, afterFilled.written _ (fun index early => .inl early)
          (by omega), isPrefix.trans (List.prefix_append _ _), .inr ⟨?_, ?_⟩⟩
        · rw [whole, afterFilled.length]
        · have enoughHits := Nat.mul_le_mul_right build.stdHitsLen large
          omega
      | false =>
        obtain ⟨takenEq, early⟩ := done rfl
        rw [ahead, List.length_cons] at enough
        obtain ⟨entries, more, ending, written, morePrefix, finished⟩ :=
          induction nextReady (by rw [nextAhead]; omega) afterFilled afterOpen early
        rw [nextAhead] at morePrefix finished
        refine ⟨entries, taken ++ more, ending, by rwa [← List.append_assoc], ?_, ?_⟩
        · rw [← takenEq]
          exact (List.prefix_append_right_inj _).mpr morePrefix
        · rw [← takenEq, ← List.append_assoc]
          exact finished.imp (fun all => by rw [all]) id

end Loops

end Wisebot.Proximity
