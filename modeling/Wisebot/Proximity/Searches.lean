import Wisebot.Indexer.Inversion
import Wisebot.Proximity.Operands

namespace Wisebot.Proximity

open Lib
open Indexer (StandardHit Build Fault)
open Qp (IndexListType Ret maxResultDochitsPerDoc maxDochitsPerDocument)

/-! Phrase searches and proximity searches find the documents they are meant to find. -/

def StandsAt (word : IndexList) (id : Nat) (field : UInt8) (position : Nat) : Prop :=
  ⟨field, position⟩ ∈ documentHits word.entries id

def HasPhrase (words : List IndexList) (id : Nat) : Prop :=
  ∃ field : UInt8, (commonField words).getLsbD field.toNat = true ∧ ∃ positions,
    List.Forall₂ (fun word position => StandsAt word id field position) words positions ∧
      positions.IsChain fun position next => position ≤ next ∧ next ≤ position + 1

/-- The last word stands in a common field within the distance of each of the others. -/
def HasNear (dist : Nat) (words : List IndexList) (id : Nat) : Prop :=
  ∃ field : UInt8, (commonField words).getLsbD field.toNat = true ∧
    ∃ others last, words = others ++ [last] ∧ ∃ position, StandsAt last id field position ∧
      ∀ other ∈ others, ∃ otherPosition, StandsAt other id field otherPosition ∧
        Near dist otherPosition position

theorem reached_phrase_iff {words : List IndexList} {id : Nat} {hit : StandardHit} :
    Reached phraseOperation (Follows phraseDistance) id words hit ↔
      ∃ later, List.Forall₂ (fun word position => StandsAt word id hit.field position) words
          (hit.position :: later) ∧
        (hit.position :: later).IsChain (Follows phraseDistance) := by
  induction words generalizing hit with
  | nil =>
    simp [Reached]
  | cons word words induction =>
    cases words with
    | nil => simp [Reached, StandsAt]
    | cons word2 words =>
      rw [reached_cons (by simp)]
      constructor
      · rintro ⟨hit1, member1, hit2, reached, same, near, rfl⟩
        obtain ⟨later, stand, chain⟩ := induction.mp reached
        exact ⟨hit2.position :: later, .cons member1 (same ▸ stand),
          List.isChain_cons_cons.mpr ⟨near, chain⟩⟩
      · rintro ⟨later, stand, chain⟩
        obtain ⟨first, stand⟩ := List.forall₂_cons.mp stand
        cases later with
        | nil => cases stand
        | cons next later =>
          obtain ⟨near, chain⟩ := List.isChain_cons_cons.mp chain
          exact ⟨hit, first, ⟨hit.field, next⟩, induction.mpr ⟨later, stand, chain⟩, rfl,
            near, rfl⟩

theorem reached_within_iff {dist : Nat} {words : List IndexList} {id : Nat} {hit : StandardHit} :
    Reached withinOperation (Near dist) id words hit ↔
      ∃ others last, words = others ++ [last] ∧ StandsAt last id hit.field hit.position ∧
        ∀ other ∈ others, ∃ otherPosition, StandsAt other id hit.field otherPosition ∧
          Near dist otherPosition hit.position := by
  induction words generalizing hit with
  | nil => simp [Reached]
  | cons word words induction =>
    cases words with
    | nil =>
      constructor
      · intro member
        exact ⟨[], word, rfl, member, by simp⟩
      · rintro ⟨others, last, split, stands, _⟩
        obtain ⟨rfl, rfl⟩ : others = [] ∧ word = last := by
          cases others with
          | nil => simpa using split
          | cons other others => simp at split
        exact stands
    | cons word2 words =>
      rw [reached_cons (by simp)]
      constructor
      · rintro ⟨hit1, member1, hit2, reached, same, near, rfl⟩
        obtain ⟨others, last, split, stands, nears⟩ := induction.mp reached
        refine ⟨word :: others, last, by rw [split]; rfl, stands, ?_⟩
        intro other member
        rcases List.mem_cons.mp member with rfl | later
        · exact ⟨hit1.position, same ▸ member1, near⟩
        · exact nears other later
      · rintro ⟨others, last, split, stands, nears⟩
        cases others with
        | nil => simp at split
        | cons other others =>
          obtain ⟨rfl, rest⟩ := List.cons.inj split
          obtain ⟨otherPosition, member1, near⟩ := nears word List.mem_cons_self
          exact ⟨⟨hit.field, otherPosition⟩, member1, hit, induction.mpr ⟨others, last, rest,
            stands, fun other member => nears other (List.mem_cons_of_mem _ member)⟩, rfl,
            near, rfl⟩

/-- The words of the operands of a node, the last operand being on top of the stack. -/
def words (lists : List IndexList) : List IndexList := lists.filter IndexList.isReal

def NodeFits (env : Env) (operation : Operation) (dist : Nat) (close : Nat → Nat → Prop)
    (lists : List IndexList) : Prop :=
  ∀ last before, lists.reverse = last :: before →
    StepsFit env operation dist close last before

section Node

variable {env : Env} {operation : Operation} {dist : Nat} {close : Nat → Nat → Prop}

theorem combineOperands_exact (finds : operation.Finds dist close)
    (keeps : operation.KeepsOne) (positive : 0 < env.maxDocHitsSize)
    {operands lists : List IndexList}
    (readings : List.Forall₂ (fun operand list => readIndexList env operand = some list)
      operands lists)
    (searchable : ∀ list ∈ words lists, Formed env.build list.entries)
    (several : 2 ≤ (words lists).length)
    (fits : NodeFits env operation dist close lists) (rest : List IndexList) (results : Nat) :
    ∃ result next,
      combineOperands env operation dist operands.length ⟨operands.reverse ++ rest, results⟩ =
        .ok (.success, ⟨result :: rest, next⟩) ∧
      ∀ id, (∃ entry ∈ result.entries, entry.dochit.id = id) ↔
        ∃ hit, (commonField (words lists)).getLsbD hit.field.toNat = true ∧
          Reached operation close id (words lists) hit := by
  have some : lists ≠ [] := by
    rintro rfl
    simp [words] at several
  obtain ⟨last, before, reversed⟩ := List.exists_cons_of_ne_nil
    (fun none => some (List.reverse_eq_nil_iff.mp none) : lists.reverse ≠ [])
  have inOrder := List.forall₂_reverse_iff.mpr readings
  rw [reversed] at inOrder
  obtain ⟨top, pending, reading, readingsBefore, stacked⟩ :=
    List.forall₂_cons_right_iff.mp inOrder
  have all : lists = before.reverse ++ [last] := by
    rw [← List.reverse_reverse lists, reversed, List.reverse_cons]
  have split : words lists = before.reverse.filter IndexList.isReal ++
      [last].filter IndexList.isReal := by
    rw [words, all, List.filter_append]
  have gathered : Gathered env operation close ([last].filter IndexList.isReal) last := by
    cases real : last.isReal with
    | false => exact .inl ⟨by simp [real], real⟩
    | true =>
      have one : [last].filter IndexList.isReal = [last] := by simp [real]
      rw [one]
      refine .inr (Carries.single (searchable last ?_) (by simpa [IndexList.isReal] using real))
      rw [split, one]
      simp
  have each : ∀ list ∈ before, list.isReal = true → Formed env.build list.entries := by
    intro list member real
    refine searchable list (List.mem_filter.mpr ⟨?_, real⟩)
    rw [all]
    simp [member]
  obtain ⟨result, read, next, running, _, same, carried⟩ :=
    combineOperands_gathered finds keeps positive reading gathered readingsBefore each
      (fits last before reversed) rest results
  rw [← split] at carried
  have length : operands.length = pending.length + 1 := by
    rw [← List.length_reverse, stacked, List.length_cons]
  refine ⟨result, next, by rw [length, stacked]; exact running, ?_⟩
  have manyPending : pending ≠ [] := by
    rintro rfl
    cases readingsBefore
    have few := List.length_filter_le IndexList.isReal [last]
    rw [split] at several
    simp at several few
    omega
  rcases carried with ⟨none, _⟩ | carries
  · rw [none] at several
    simp at several
  · intro id
    rw [same (.inl manyPending), ← carries.field_eq]
    exact carries.docids several id

end Node

def oneHit (position : Nat) : Entry where
  dochit := {
    id := 1
    field := 1
    hits := List.replicate 4 ⟨0, position⟩
    hitratio := 0
    nhits := 1 }
  relevance := 0

def quietEnv : Env where
  build := Indexer.defaultBuild
  maxDocHitsSize := 1000
  posting _ := .absent
  weightList := ⟨false, 0, []⟩
  lastIndexedDid := 1
  log10 _ := 0
  buffer _ _ := oneHit 0
  buffer_room _ _ := rfl

def completeList (entries : List Entry) : IndexList where
  wordid := 1
  field := 1
  listType := .normal
  isCompleteList := true
  entries := entries

theorem oneHit_sound (position : Nat) : Sound quietEnv.build (oneHit position).dochit :=
  ⟨Nat.le_refl 1, show 1 ≤ 4 by decide, rfl⟩

theorem oneHit_regular {positions : List Nat} (known : ∀ position ∈ positions, position < 1000) :
    Regular quietEnv.build (completeList (positions.map oneHit)).entries := by
  refine ⟨?_, ?_, ?_⟩
  · exact List.pairwise_map.mpr (List.pairwise_of_forall fun _ _ => Nat.le_refl 1)
  · intro entry member
    obtain ⟨position, _, rfl⟩ := List.mem_map.mp member
    exact oneHit_sound position
  · intro hit member
    obtain ⟨entry, inside, counted⟩ := List.mem_flatMap.mp member
    obtain ⟨position, listed, rfl⟩ := List.mem_map.mp inside
    have small := known position listed
    obtain rfl : hit = ⟨0, position⟩ := by simpa [oneHit, DocHit.counted] using counted
    exact ⟨show (0 : UInt8).toNat < 32 by decide, show position < 16777215 by omega⟩

theorem oneHit_formed {positions : List Nat} (known : ∀ position ∈ positions, position < 1000)
    (few : positions.length ≤ maxDochitsPerDocument) :
    Formed quietEnv.build (completeList (positions.map oneHit)).entries := by
  refine ⟨oneHit_regular known, fun id => (List.length_filter_le _ _).trans ?_⟩
  rwa [completeList, List.length_map]

theorem oneHit_fewPairs {operation : Operation} {dist : Nat} {close : Nat → Nat → Prop}
    {field : BitVec 32} {positions1 positions2 : List Nat}
    (few : (pairs operation dist (hitsOf (positions1.map oneHit))
      (hitsOf (positions2.map oneHit))).length ≤ 20) :
    FewPairs quietEnv operation dist close field (positions1.map oneHit)
      (positions2.map oneHit) := by
  have first : ∀ positions : List Nat, ∀ entry ∈ positions.map oneHit, entry.dochit.id = 1 := by
    intro positions entry member
    obtain ⟨position, _, rfl⟩ := List.mem_map.mp member
    rfl
  intro id joins
  by_cases one : id = 1
  · subst one
    rw [documentHits_all (first positions1), documentHits_all (first positions2)]
    exact few
  · rw [documentHits_absent fun entry member same =>
      one (same.symm.trans (first positions1 entry member))] at joins
    exact absurd joins (not_joins_nil_left _)

theorem oneHit_nodeFits {operation : Operation} {dist : Nat} {close : Nat → Nat → Prop}
    {positions1 positions2 : List Nat}
    (few : (pairs operation dist (hitsOf (positions1.map oneHit))
      (hitsOf (positions2.map oneHit))).length ≤ 20)
    (small : ∀ results list next,
      combine quietEnv operation dist results (completeList (positions1.map oneHit))
        (completeList (positions2.map oneHit)) = .ok (list, next) →
      list.entries.length < 1000) :
    NodeFits quietEnv operation dist close [completeList (positions1.map oneHit),
      completeList (positions2.map oneHit)] := by
  intro last before reversed
  obtain ⟨rfl, rfl⟩ := List.cons.inj reversed
  exact ⟨fun _ _ => oneHit_fewPairs few, fun results list next combining =>
    ⟨fun _ _ => small results list next combining, trivial⟩⟩

theorem combine_crowded {operation : Operation} {dist position1 position2 : Nat}
    {positions1 positions2 : List Nat}
    (crowded : maxDochitsPerDocument < (position1 :: positions1).length)
    (near : operation.shortest 1 (((position1 :: positions1).map oneHit).map Entry.dochit)
      (((position2 :: positions2).map oneHit).map Entry.dochit) ≤ dist) (results : Nat) :
    combine quietEnv operation dist results (completeList ((position1 :: positions1).map oneHit))
      (completeList ((position2 :: positions2).map oneHit)) = .error .outsideBuffer := by
  have first : ∀ position positions, (firstDocument (oneHit position :: positions.map oneHit)).1 =
      (position :: positions).map oneHit := by
    intro position positions
    rw [firstDocument, List.takeWhile_eq_self_iff.mpr]
    · rfl
    · intro entry member
      obtain ⟨other, _, rfl⟩ := List.mem_map.mp member
      rfl
  have entering : documentEntries quietEnv operation dist 1 (quietEnv.buffer results)
      ((position1 :: positions1).map oneHit) ((position2 :: positions2).map oneHit) 1 0 =
      .error .outsideBuffer := by
    rw [documentEntries, if_neg (Nat.not_lt.mpr near), initIndexDocument,
      if_pos (by rwa [List.length_map])]
    rfl
  have merging : ∀ fuel, eachListFrom quietEnv operation dist 1 (quietEnv.buffer results) (fuel + 1)
      ((position1 :: positions1).map oneHit) ((position2 :: positions2).map oneHit) [] =
      .error .outsideBuffer := by
    intro fuel
    rw [List.map_cons, List.map_cons, eachListFrom, first, first]
    have same : ∀ position, (oneHit position).dochit.id = 1 := fun _ => rfl
    rw [same, same, if_neg (Nat.lt_irrefl _), if_neg (Nat.lt_irrefl _), List.length_nil, entering]
    rfl
  have real : ∀ entries, (completeList entries).listType ≠ .fakeOp := fun _ => by simp [completeList]
  have masks : ∀ entries others, (completeList entries).field &&& (completeList others).field = 1 :=
    fun _ _ => (by decide : (1 : BitVec 32) &&& 1 = 1)
  have contents : ∀ entries, (completeList entries).entries = entries := fun _ => rfl
  rw [combine, if_neg (real _), if_neg (real _), operateEachList, masks, contents, contents, merging]
  rfl

theorem neighbours_searchable :
    ∀ list ∈ words [completeList [oneHit 5], completeList [oneHit 6]],
      Formed quietEnv.build list.entries := by
  intro list member
  rcases List.mem_cons.mp member with rfl | member
  · exact @oneHit_formed [5] (by decide) (by decide)
  · obtain rfl := List.mem_singleton.mp member
    exact @oneHit_formed [6] (by decide) (by decide)

/-- A phrase search returns exactly the documents that have the phrase. -/
theorem operatePhrase_exact {env : Env} (positive : 0 < env.maxDocHitsSize)
    {operands lists : List IndexList}
    (readings : List.Forall₂ (fun operand list => readIndexList env operand = some list)
      operands lists)
    (searchable : ∀ list ∈ words lists, Formed env.build list.entries)
    (several : 2 ≤ (words lists).length)
    (fits : NodeFits env phraseOperation phraseDistance (Follows phraseDistance) lists)
    (rest : List IndexList) (results : Nat) :
    ∃ result next,
      operatePhrase env operands.length ⟨operands.reverse ++ rest, results⟩ =
        .ok (.success, ⟨result :: rest, next⟩) ∧
      ∀ id, (∃ entry ∈ result.entries, entry.dochit.id = id) ↔ HasPhrase (words lists) id := by
  obtain ⟨result, next, running, docids⟩ := combineOperands_exact phraseOperation_finds
    (fun _ _ => .inl rfl) positive readings searchable several fits rest results
  refine ⟨result, next, running, fun id => ?_⟩
  rw [docids, HasPhrase]
  constructor
  · rintro ⟨hit, masked, reached⟩
    obtain ⟨later, stand, chain⟩ := reached_phrase_iff.mp reached
    exact ⟨hit.field, masked, hit.position :: later, stand, chain⟩
  · rintro ⟨field, masked, positions, stand, chain⟩
    cases positions with
    | nil =>
      rw [List.forall₂_nil_right_iff.mp stand] at several
      simp at several
    | cons position later =>
      exact ⟨⟨field, position⟩, masked, reached_phrase_iff.mpr ⟨later, stand, chain⟩⟩

/-- Two words next to each other. -/
theorem operatePhrase_exact_neighbours :
    ∃ result next,
      operatePhrase quietEnv 2 ⟨[completeList [oneHit 6], completeList [oneHit 5]], 0⟩ =
        .ok (.success, ⟨[result], next⟩) ∧
      ∀ id, (∃ entry ∈ result.entries, entry.dochit.id = id) ↔
        HasPhrase [completeList [oneHit 5], completeList [oneHit 6]] id :=
  @operatePhrase_exact quietEnv (by decide) _ [completeList [oneHit 5], completeList [oneHit 6]]
    (.cons rfl (.cons rfl .nil)) neighbours_searchable (by decide)
    (@oneHit_nodeFits _ _ _ [5] [6] (by decide) fun _ _ _ combining => by
      cases combining
      exact (show 1 < 1000 by decide)) [] 0

/-- Two words, the first one with more than 512 entries of a document. -/
def crowdedOperands : List IndexList :=
  [completeList ((5 :: List.replicate 512 100).map oneHit), completeList ([6].map oneHit)]

theorem crowdedOperands_regular :
    ∀ list ∈ words crowdedOperands, Regular quietEnv.build list.entries := by
  intro list member
  rcases List.mem_cons.mp (List.mem_of_mem_filter member) with rfl | member
  · refine oneHit_regular fun position listed => ?_
    rcases List.mem_cons.mp listed with rfl | more
    · decide
    · rw [List.eq_of_mem_replicate more]
      decide
  · obtain rfl := List.mem_singleton.mp member
    exact oneHit_regular (by decide)

theorem crowdedOperands_fail {operation : Operation} {dist : Nat} {close : Nat → Nat → Prop}
    (near : operation.shortest 1 (((5 :: List.replicate 512 100).map oneHit).map Entry.dochit)
      (([6].map oneHit).map Entry.dochit) ≤ dist)
    (few : (pairs operation dist (hitsOf ((5 :: List.replicate 512 100).map oneHit))
      (hitsOf ([6].map oneHit))).length ≤ 20) :
    NodeFits quietEnv operation dist close crowdedOperands ∧
      combineOperands quietEnv operation dist 2 ⟨crowdedOperands.reverse, 0⟩ =
        .error .outsideBuffer := by
  have crowded : maxDochitsPerDocument < (5 :: List.replicate 512 100).length := by
    rw [List.length_cons, List.length_replicate]
    decide
  have combining := combine_crowded crowded near
  refine ⟨oneHit_nodeFits few fun results list next combined => ?_,
    congrArg (· >>= _) (combining 0)⟩
  have failed := combining results
  rw [combined] at failed
  cases failed

/-- A phrase search writes outside an array where a document has more than 512 entries. -/
theorem operatePhrase_crowded :
    (∀ list ∈ words crowdedOperands, Regular quietEnv.build list.entries) ∧
      NodeFits quietEnv phraseOperation phraseDistance (Follows phraseDistance) crowdedOperands ∧
      operatePhrase quietEnv 2 ⟨crowdedOperands.reverse, 0⟩ = .error .outsideBuffer :=
  ⟨crowdedOperands_regular, crowdedOperands_fail (by decide +kernel) (by decide +kernel)⟩

/-- A proximity search returns exactly the documents in which the last word is near the
others. -/
theorem operateWithin_exact {env : Env} (positive : 0 < env.maxDocHitsSize) {dist : Nat}
    (isDist : dist ≤ 65535) {operands lists : List IndexList}
    (readings : List.Forall₂ (fun operand list => readIndexList env operand = some list)
      operands lists)
    (searchable : ∀ list ∈ words lists, Formed env.build list.entries)
    (several : 2 ≤ (words lists).length)
    (fits : NodeFits env withinOperation dist (Near dist) lists)
    (rest : List IndexList) (results : Nat) :
    ∃ result next,
      operateWithin env operands.length dist ⟨operands.reverse ++ rest, results⟩ =
        .ok (.success, ⟨result :: rest, next⟩) ∧
      ∀ id, (∃ entry ∈ result.entries, entry.dochit.id = id) ↔ HasNear dist (words lists) id := by
  obtain ⟨result, next, running, docids⟩ := combineOperands_exact
    (withinOperation_finds (show dist < int32Max by rw [int32Max]; omega))
    (fun _ _ => .inr rfl) positive readings searchable several fits rest results
  have neededDist : ((dist : Int) % 65536).toNat = dist := by omega
  refine ⟨result, next, ?_, fun id => ?_⟩
  · rw [operateWithin, neededDist, if_neg (by omega)]
    exact running
  · rw [docids, HasNear]
    constructor
    · rintro ⟨hit, masked, reached⟩
      obtain ⟨others, last, split, stands, nears⟩ := reached_within_iff.mp reached
      exact ⟨hit.field, masked, others, last, split, hit.position, stands, nears⟩
    · rintro ⟨field, masked, others, last, split, position, stands, nears⟩
      exact ⟨⟨field, position⟩, masked, reached_within_iff.mpr ⟨others, last, split, stands, nears⟩⟩

/-- Two words that are near each other. -/
theorem operateWithin_exact_neighbours :
    ∃ result next,
      operateWithin quietEnv 2 (3 : Nat) ⟨[completeList [oneHit 6], completeList [oneHit 5]], 0⟩ =
        .ok (.success, ⟨[result], next⟩) ∧
      ∀ id, (∃ entry ∈ result.entries, entry.dochit.id = id) ↔
        HasNear 3 [completeList [oneHit 5], completeList [oneHit 6]] id :=
  @operateWithin_exact quietEnv (by decide) 3 (by decide) _
    [completeList [oneHit 5], completeList [oneHit 6]] (.cons rfl (.cons rfl .nil))
    neighbours_searchable (by decide)
    (@oneHit_nodeFits _ _ _ [5] [6] (by decide) fun _ _ _ combining => by
      cases combining
      exact (show 1 < 1000 by decide)) [] 0

/-- A proximity search writes outside an array where a document has more than 512 entries. -/
theorem operateWithin_crowded :
    (∀ list ∈ words crowdedOperands, Regular quietEnv.build list.entries) ∧
      NodeFits quietEnv withinOperation 1 (Near 1) crowdedOperands ∧
      operateWithin quietEnv 2 1 ⟨crowdedOperands.reverse, 0⟩ = .error .outsideBuffer :=
  ⟨crowdedOperands_regular, crowdedOperands_fail (by decide +kernel) (by decide +kernel)⟩

end Wisebot.Proximity
