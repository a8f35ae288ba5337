import Mathlib.Data.List.TakeWhile
import Wisebot.Proximity.Documents

namespace Wisebot.Proximity

open Lib Lib.Runs
open Indexer (StandardHit Build Fault maxStdPosition)
open Qp (maxResultDochitsPerDoc maxDochitsPerDocument)

/-! `operate_within_each_list` and `operate_phrase_each_list` on lists that are sorted by
document: which hits every document has in the result. -/

/-- A hit of one of the 32 fields whose position is known. -/
def Known (hit : StandardHit) : Prop :=
  hit.field.toNat < 32 ∧ hit.position < maxStdPosition

/-- The hits of two documents have a close pair in a field of the mask. -/
def Joins (field : BitVec 32) (close : Nat → Nat → Prop) (hits1 hits2 : List StandardHit) :
    Prop :=
  ∃ hit1 ∈ hits1, ∃ hit2 ∈ hits2, field.getLsbD hit1.field.toNat = true ∧
    hit1.field = hit2.field ∧ close hit1.position hit2.position

structure Operation.Finds (operation : Operation) (dist : Nat) (close : Nat → Nat → Prop) :
    Prop where
  shortest_le : ∀ field dochits1 dochits2, operation.shortest field dochits1 dochits2 ≤ dist ↔
    HasPair field close dochits1 dochits2
  isClose_iff : ∀ hit1 hit2, Known hit1 → Known hit2 →
    (operation.isClose hit1 hit2 dist = true ↔
      hit1.field = hit2.field ∧ close hit1.position hit2.position)

theorem phraseOperation_finds : phraseOperation.Finds phraseDistance (Follows phraseDistance) where
  shortest_le field dochits1 dochits2 :=
    getOrderedShortestDist_le_iff field (by decide) dochits1 dochits2
  isClose_iff _ _ known1 known2 := isWithinOrderedDist_iff known1.2 known2.2

theorem withinOperation_finds {dist : Nat} (small : dist < int32Max) :
    withinOperation.Finds dist (Near dist) where
  shortest_le field dochits1 dochits2 := getAbsShortestDist_le_iff field small dochits1 dochits2
  isClose_iff _ _ known1 known2 := isWithinDist_iff known1.2 known2.2

theorem inMask_iff {field : BitVec 32} {hit : StandardHit} (isField : hit.field.toNat < 32) :
    inMask field hit = true ↔ field.getLsbD hit.field.toNat = true := by
  have one : ∀ index, (1#32 <<< hit.field.toNat).getLsbD index = true ↔
      index = hit.field.toNat := by
    intro index
    simp only [BitVec.getLsbD_shiftLeft, BitVec.getLsbD_one, Bool.and_eq_true,
      Bool.not_eq_true', decide_eq_true_eq, decide_eq_false_iff_not]
    omega
  have bit : ∀ index, (1#32 <<< hit.field.toNat &&& field).getLsbD index = true ↔
      index = hit.field.toNat ∧ field.getLsbD index = true := by
    intro index
    rw [BitVec.getLsbD_and, Bool.and_eq_true, one]
  have zero : ∀ index, BitVec.getLsbD (0 : BitVec 32) index = false := fun index =>
    BitVec.getLsbD_zero
  rw [inMask, decide_eq_true_iff]
  constructor
  · intro some
    by_contra absent
    refine some (BitVec.eq_of_getLsbD_eq fun index _ => ?_)
    rw [zero, ← Bool.not_eq_true, bit]
    rintro ⟨rfl, masked⟩
    exact absent masked
  · intro masked none
    have clear : (1#32 <<< hit.field.toNat &&& field).getLsbD hit.field.toNat = false := by
      rw [none, zero]
    rw [(bit hit.field.toNat).mpr ⟨rfl, masked⟩] at clear
    cases clear

theorem placed_iff {field : BitVec 32} {hit : StandardHit} (known : Known hit) :
    placed field hit = true ↔ field.getLsbD hit.field.toNat = true := by
  have differs : hit.position ≠ maxStdPosition := Nat.ne_of_lt known.2
  rw [placed, Bool.and_eq_true, inMask_iff known.1, decide_eq_true_iff]
  exact and_iff_left differs

theorem hasPair_iff_joins {field : BitVec 32} {close : Nat → Nat → Prop} {doc1 doc2 : List Entry}
    (known1 : ∀ hit ∈ hitsOf doc1, Known hit) (known2 : ∀ hit ∈ hitsOf doc2, Known hit) :
    HasPair field close (doc1.map Entry.dochit) (doc2.map Entry.dochit) ↔
      Joins field close (hitsOf doc1) (hitsOf doc2) := by
  rw [hasPair_iff, List.flatMap_map, List.flatMap_map]
  constructor
  · rintro ⟨hit1, member1, hit2, member2, ⟨placed1, _, same⟩, isClose⟩
    exact ⟨hit1, member1, hit2, member2, (placed_iff (known1 hit1 member1)).mp placed1, same,
      isClose⟩
  · rintro ⟨hit1, member1, hit2, member2, masked, same, isClose⟩
    exact ⟨hit1, member1, hit2, member2, ⟨(placed_iff (known1 hit1 member1)).mpr masked,
      (placed_iff (known2 hit2 member2)).mpr (same ▸ masked), same⟩, isClose⟩

theorem mem_pairs {operation : Operation} {dist : Nat} {hits1 hits2 : List StandardHit}
    {hit : StandardHit} :
    hit ∈ pairs operation dist hits1 hits2 ↔ ∃ hit1 ∈ hits1, ∃ hit2 ∈ hits2,
      operation.isClose hit1 hit2 dist = true ∧ operation.kept hit1 hit2 = hit := by
  simp only [pairs, pairsWith, List.mem_flatMap, List.mem_map, List.mem_filter]
  constructor
  · rintro ⟨hit2, member2, hit1, ⟨member1, isClose⟩, kept⟩
    exact ⟨hit1, member1, hit2, member2, isClose, kept⟩
  · rintro ⟨hit1, member1, hit2, member2, isClose, kept⟩
    exact ⟨hit2, member2, hit1, ⟨member1, isClose⟩, kept⟩

section Document

variable {env : Env} {operation : Operation} {dist : Nat} {close : Nat → Nat → Prop}
  {field : BitVec 32}

theorem filled_initResultDocument {build : Build} {buffer : Buffer Entry}
    (room : ∀ index, (buffer index).dochit.hits.length = build.stdHitsLen)
    (docid start nelm : Nat) :
    Filled build docid nelm [] (initResultDocument buffer start nelm) := by
  have blank : ∀ entry ∈ (initResultDocument buffer start nelm).dochits,
      entry.dochit.nhits = 0 ∧ entry.dochit.hits.length = build.stdHitsLen := by
    intro entry member
    obtain ⟨index, _, rfl⟩ := List.mem_map.mp member
    exact ⟨rfl, room _⟩
  refine ⟨?_, fun entry member => (blank entry member).2, ?_, ?_, Nat.zero_le _, ?_, ?_⟩
  · simp [initResultDocument]
  · intro index entry place
    have dochitIdx : (initResultDocument buffer start nelm).dochitIdx = 0 := rfl
    have hitIdx : (initResultDocument buffer start nelm).hitIdx = 0 := rfl
    rw [(blank entry (List.mem_of_getElem? place)).1, dochitIdx, hitIdx, ite_self,
      if_neg (Nat.not_lt_zero index)]
  · intro entry member positive
    rw [(blank entry member).1] at positive
    cases positive
  · exact hitsOf_blank fun entry member => (blank entry member).1
  · simp [initResultDocument]

/-- What a list is made of: entries with known hits, sorted by document. -/
structure Regular (build : Build) (entries : List Entry) : Prop where
  sorted : Ordered (fun entry : Entry => entry.dochit.id) entries
  sound : ∀ entry ∈ entries, Sound build entry.dochit
  known : ∀ hit ∈ hitsOf entries, Known hit

/-- No document has more entries than the array for the entries of a document. -/
structure Formed (build : Build) (entries : List Entry) : Prop extends Regular build entries where
  few : ∀ id, (entries.filter fun entry => entry.dochit.id = id).length ≤ maxDochitsPerDocument

structure OneDocument (build : Build) (doc : List Entry) : Prop where
  nonempty : doc ≠ []
  sound : ∀ entry ∈ doc, Sound build entry.dochit
  known : ∀ hit ∈ hitsOf doc, Known hit
  few : doc.length ≤ maxDochitsPerDocument

theorem ready_of_start {build : Build} {doc : List Entry} (document : OneDocument build doc) :
    IndexDocument.Ready build ⟨doc, 0, 0⟩ := by
  obtain ⟨entry, rest, rfl⟩ := List.exists_cons_of_ne_nil document.nonempty
  exact ⟨document.sound, [], entry, rest, rfl, rfl, Nat.zero_le _⟩

theorem ahead_of_start (doc : List Entry) : IndexDocument.ahead ⟨doc, 0, 0⟩ = hitsOf doc := by
  cases doc with
  | nil => rfl
  | cons entry rest => rfl

structure Entered (env : Env) (idx3 docid : Nat) (found : List StandardHit)
    (dochits3 : List Entry) : Prop where
  nonempty : dochits3 ≠ []
  ids : ∀ entry ∈ dochits3, entry.dochit.id = docid
  sound : ∀ entry ∈ dochits3, Sound env.build entry.dochit
  few : dochits3.length ≤ min maxResultDochitsPerDoc (env.maxDocHitsSize - idx3)
  complete : found.length ≤ maxResultDochitsPerDoc * env.build.stdHitsLen →
    hitsOf dochits3 = found ∨ idx3 + dochits3.length = env.maxDocHitsSize

theorem documentEntries_spec (finds : operation.Finds dist close) {doc1 doc2 : List Entry}
    (document1 : OneDocument env.build doc1) (document2 : OneDocument env.build doc2)
    {buffer : Buffer Entry}
    (room : ∀ index, (buffer index).dochit.hits.length = env.build.stdHitsLen)
    {idx3 : Nat} (space : idx3 < env.maxDocHitsSize) (docid : Nat) :
    (¬ Joins field close (hitsOf doc1) (hitsOf doc2) ∧
        documentEntries env operation dist field buffer doc1 doc2 docid idx3 = .ok none) ∨
      Joins field close (hitsOf doc1) (hitsOf doc2) ∧
        ∃ dochits3, documentEntries env operation dist field buffer doc1 doc2 docid idx3 =
            .ok (some dochits3) ∧
          Entered env idx3 docid (pairs operation dist (hitsOf doc1) (hitsOf doc2)) dochits3 := by
  have shortest := finds.shortest_le field (doc1.map Entry.dochit) (doc2.map Entry.dochit)
  rw [hasPair_iff_joins document1.known document2.known] at shortest
  rw [documentEntries]
  by_cases joins : Joins field close (hitsOf doc1) (hitsOf doc2)
  · refine .inr ⟨joins, ?_⟩
    rw [if_neg (Nat.not_lt.mpr (shortest.mpr joins)), initIndexDocument,
      if_neg (Nat.not_lt.mpr document1.few), initIndexDocument,
      if_neg (Nat.not_lt.mpr document2.few)]
    generalize size : min maxResultDochitsPerDoc (env.maxDocHitsSize - idx3) = nelm
    have positive : 0 < nelm := by
      rw [← size, maxResultDochitsPerDoc]
      omega
    have ready2 := ready_of_start document2
    obtain ⟨entries, taken, filling, written, isPrefix, finished⟩ :=
      @outerLoop_spec _ operation dist docid nelm ⟨doc1, 0, 0⟩ (ready_of_start document1)
        (turns ⟨doc2, 0, 0⟩) ⟨doc2, 0, 0⟩ ready2 (length_ahead_lt ready2) _ _
        (filled_initResultDocument room docid idx3 nelm) env.build.stdHitsLen_pos positive
    have ahead1 : (setIdxToFirstHit ⟨doc1, 0, 0⟩).ahead = hitsOf doc1 := ahead_of_start doc1
    rw [ahead1, ahead_of_start] at isPrefix finished
    rw [List.nil_append] at written finished
    have some : entries ≠ [] := by
      rcases finished with all | ⟨full, _⟩
      · obtain ⟨hit1, member1, hit2, member2, _, same, near⟩ := joins
        have isClose := (finds.isClose_iff hit1 hit2 (document1.known hit1 member1)
          (document2.known hit2 member2)).mpr ⟨same, near⟩
        have found : operation.kept hit1 hit2 ∈ hitsOf entries := by
          rw [written.hits_eq, all]
          exact mem_pairs.mpr ⟨hit1, member1, hit2, member2, isClose, rfl⟩
        rintro rfl
        cases found
      · intro none
        rw [none] at full
        cases full
        cases positive
    have count : ¬ entries.length = 0 := fun none => some (List.length_eq_zero_iff.mp none)
    refine ⟨entries, ?_, some, written.ids, written.sound, size ▸ written.few, fun enough => ?_⟩
    · simp only [bind, Except.bind, operateEachDocument]
      rw [show setIdxToFirstHit ⟨doc2, 0, 0⟩ = ⟨doc2, 0, 0⟩ from rfl, filling]
      exact if_neg count
    · rcases finished with all | ⟨full, many⟩
      · exact .inl (written.hits_eq.trans all)
      · by_cases limited : nelm = maxResultDochitsPerDoc
        · rw [limited] at many
          exact .inl (written.hits_eq.trans (isPrefix.eq_of_length_le (enough.trans many)))
        · right
          omega
  · refine .inl ⟨joins, if_pos ?_⟩
    rwa [← Nat.not_le, shortest]

end Document

def documentHits (entries : List Entry) (id : Nat) : List StandardHit :=
  hitsOf (entries.filter fun entry => entry.dochit.id = id)

theorem documentHits_append (first second : List Entry) (id : Nat) :
    documentHits (first ++ second) id = documentHits first id ++ documentHits second id := by
  rw [documentHits, List.filter_append, hitsOf_append]
  rfl

theorem documentHits_absent {entries : List Entry} {id : Nat}
    (absent : ∀ entry ∈ entries, entry.dochit.id ≠ id) : documentHits entries id = [] := by
  rw [documentHits, List.filter_eq_nil_iff.mpr]
  · rfl
  · intro entry member
    simpa using absent entry member

theorem documentHits_all {entries : List Entry} {id : Nat}
    (all : ∀ entry ∈ entries, entry.dochit.id = id) : documentHits entries id = hitsOf entries := by
  rw [documentHits, List.filter_eq_self.mpr]
  intro entry member
  simpa using all entry member

theorem mem_documentHits {entries : List Entry} {id : Nat} {hit : StandardHit}
    (member : hit ∈ documentHits entries id) : hit ∈ hitsOf entries := by
  obtain ⟨entry, inside, counted⟩ := List.mem_flatMap.mp member
  exact List.mem_flatMap.mpr ⟨entry, List.mem_of_mem_filter inside, counted⟩

section First

variable {build : Build} {head : Entry} {entries : List Entry}

theorem Formed.sublist {kept : List Entry} (formed : Formed build entries)
    (sublist : kept.Sublist entries) : Formed build kept where
  sorted := List.Pairwise.sublist sublist formed.sorted
  sound entry member := formed.sound entry (sublist.subset member)
  known hit member := by
    obtain ⟨entry, inside, counted⟩ := List.mem_flatMap.mp member
    exact formed.known hit (List.mem_flatMap.mpr ⟨entry, sublist.subset inside, counted⟩)
  few id := ((sublist.filter _).length_le).trans (formed.few id)

theorem firstDocument_append :
    (firstDocument (head :: entries)).1 ++ (firstDocument (head :: entries)).2 =
      head :: entries := by
  simp only [firstDocument, List.cons_append, List.takeWhile_append_dropWhile]

theorem firstDocument_length :
    (firstDocument (head :: entries)).2.length ≤ entries.length :=
  (List.dropWhile_sublist _).length_le

structure SplitsFirst (build : Build) (head : Entry) (entries first rest : List Entry) : Prop where
  document : OneDocument build first
  formed : Formed build rest
  greater : ∀ entry ∈ rest, head.dochit.id < entry.dochit.id
  hits_first : documentHits (head :: entries) head.dochit.id = hitsOf first
  hits_rest : ∀ id, id ≠ head.dochit.id →
    documentHits (head :: entries) id = documentHits rest id
  smallest : ∀ id, id < head.dochit.id → documentHits (head :: entries) id = []
  members : ∀ entry ∈ rest, entry ∈ head :: entries

theorem Formed.splitsFirst (formed : Formed build (head :: entries)) :
    SplitsFirst build head entries (firstDocument (head :: entries)).1
      (firstDocument (head :: entries)).2 := by
  have least := formed.sorted.head_le
  have append := @firstDocument_append head entries
  have same : ∀ entry ∈ (firstDocument (head :: entries)).1,
      entry.dochit.id = head.dochit.id := by
    intro entry member
    rcases List.mem_cons.mp member with rfl | inside
    · rfl
    · simpa using List.mem_takeWhile_imp inside
  have greater : ∀ entry ∈ (firstDocument (head :: entries)).2,
      head.dochit.id < entry.dochit.id :=
    dropWhile_smallest formed.sorted.tail least
  have firstSublist : (firstDocument (head :: entries)).1.Sublist (head :: entries) := by
    conv_rhs => rw [← append]
    exact List.sublist_append_left _ _
  have restSublist : (firstDocument (head :: entries)).2.Sublist (head :: entries) := by
    conv_rhs => rw [← append]
    exact List.sublist_append_right _ _
  have firstFormed := formed.sublist firstSublist
  have few := firstFormed.few head.dochit.id
  rw [List.filter_eq_self.mpr (by simpa using same)] at few
  have divided : ∀ id, documentHits (head :: entries) id =
      documentHits (firstDocument (head :: entries)).1 id ++
        documentHits (firstDocument (head :: entries)).2 id := by
    intro id
    rw [← documentHits_append, append]
  refine ⟨⟨by simp [firstDocument], firstFormed.sound, firstFormed.known, few⟩,
    formed.sublist restSublist, greater, ?_, ?_, ?_, restSublist.subset⟩
  · rw [divided, documentHits_all same, documentHits_absent fun entry member equal =>
      absurd (greater entry member) (by omega), List.append_nil]
  · intro id other
    rw [divided, documentHits_absent fun entry member equal => other
      (equal.symm.trans (same entry member)), List.nil_append]
  · intro id smaller
    apply documentHits_absent
    intro entry member equal
    rcases List.mem_cons.mp member with rfl | inside
    · omega
    · have le := least entry inside
      omega

end First

section Lists

variable {env : Env} {operation : Operation} {dist : Nat} {close : Nat → Nat → Prop}
  {field : BitVec 32}

/-- No document of two lists has more pairs than its entries in a result can hold. -/
def FewPairs (env : Env) (operation : Operation) (dist : Nat) (close : Nat → Nat → Prop)
    (field : BitVec 32) (l1 l2 : List Entry) : Prop :=
  ∀ id, Joins field close (documentHits l1 id) (documentHits l2 id) →
    (pairs operation dist (documentHits l1 id) (documentHits l2 id)).length ≤
      maxResultDochitsPerDoc * env.build.stdHitsLen

structure Joined (env : Env) (operation : Operation) (dist : Nat) (close : Nat → Nat → Prop)
    (field : BitVec 32) (l1 l2 out : List Entry) : Prop where
  sorted : Ordered (fun entry : Entry => entry.dochit.id) out
  sound : ∀ entry ∈ out, Sound env.build entry.dochit
  few : ∀ id, (out.filter fun entry => entry.dochit.id = id).length ≤ maxResultDochitsPerDoc
  members : ∀ entry ∈ out, ∃ entry1 ∈ l1, entry1.dochit.id = entry.dochit.id
  joined : ∀ id, Joins field close (documentHits l1 id) (documentHits l2 id) →
    documentHits out id = pairs operation dist (documentHits l1 id) (documentHits l2 id)
  others : ∀ id, ¬ Joins field close (documentHits l1 id) (documentHits l2 id) →
    documentHits out id = []

theorem not_joins_nil_right (hits1 : List StandardHit) : ¬ Joins field close hits1 [] := by
  rintro ⟨_, _, _, member, _⟩
  cases member

theorem not_joins_nil_left (hits2 : List StandardHit) : ¬ Joins field close [] hits2 := by
  rintro ⟨_, member, _⟩
  cases member

/-- Passing over entries of documents that do not join changes nothing. -/
structure Passes (close : Nat → Nat → Prop) (field : BitVec 32) (l1 l2 rest1 rest2 : List Entry) :
    Prop where
  members : ∀ entry ∈ rest1, entry ∈ l1
  same : ∀ id, documentHits l1 id = documentHits rest1 id ∧
      documentHits l2 id = documentHits rest2 id ∨
    ¬ Joins field close (documentHits l1 id) (documentHits l2 id) ∧
      ¬ Joins field close (documentHits rest1 id) (documentHits rest2 id)

theorem Passes.fewPairs {l1 l2 rest1 rest2 : List Entry}
    (passes : Passes close field l1 l2 rest1 rest2)
    (few : FewPairs env operation dist close field l1 l2) :
    FewPairs env operation dist close field rest1 rest2 := by
  intro id joins
  rcases passes.same id with ⟨same1, same2⟩ | ⟨_, apart⟩
  · rw [← same1, ← same2] at joins ⊢
    exact few id joins
  · exact absurd joins apart

theorem Passes.joined {l1 l2 rest1 rest2 out : List Entry}
    (passes : Passes close field l1 l2 rest1 rest2)
    (joined : Joined env operation dist close field rest1 rest2 out) :
    Joined env operation dist close field l1 l2 out := by
  refine { joined with members := ?_, joined := ?_, others := ?_ }
  · intro entry member
    obtain ⟨entry1, inside, same⟩ := joined.members entry member
    exact ⟨entry1, passes.members entry1 inside, same⟩
  · intro id joins
    rcases passes.same id with ⟨same1, same2⟩ | ⟨apart, _⟩
    · rw [same1, same2] at joins ⊢
      exact joined.joined id joins
    · exact absurd joins apart
  · intro id apart
    rcases passes.same id with ⟨same1, same2⟩ | ⟨_, restApart⟩
    · rw [same1, same2] at apart
      exact joined.others id apart
    · exact joined.others id restApart

theorem Joined.nil_of_apart {l1 l2 : List Entry}
    (apart : ∀ id, ¬ Joins field close (documentHits l1 id) (documentHits l2 id)) :
    Joined env operation dist close field l1 l2 [] where
  sorted := List.Pairwise.nil
  sound := by simp
  few := by simp
  members := by simp
  joined id joins := absurd joins (apart id)
  others _ _ := rfl

section Step

variable {entry1 entry2 : Entry} {l1 l2 first1 rest1 first2 rest2 : List Entry}
  (split1 : SplitsFirst env.build entry1 l1 first1 rest1)
  (split2 : SplitsFirst env.build entry2 l2 first2 rest2)

include split1 split2

theorem passes_first (less : entry1.dochit.id < entry2.dochit.id) :
    Passes close field (entry1 :: l1) (entry2 :: l2) rest1 (entry2 :: l2) where
  members := split1.members
  same id := by
    by_cases same : id = entry1.dochit.id
    · have none := split2.smallest id (same ▸ less)
      rw [none]
      exact .inr ⟨not_joins_nil_right _, not_joins_nil_right _⟩
    · exact .inl ⟨split1.hits_rest id same, rfl⟩

theorem passes_second (less : entry2.dochit.id < entry1.dochit.id) :
    Passes close field (entry1 :: l1) (entry2 :: l2) (entry1 :: l1) rest2 where
  members _ member := member
  same id := by
    by_cases same : id = entry2.dochit.id
    · have none := split1.smallest id (same ▸ less)
      rw [none]
      exact .inr ⟨not_joins_nil_left _, not_joins_nil_left _⟩
    · exact .inl ⟨rfl, split2.hits_rest id same⟩

theorem passes_both (same : entry1.dochit.id = entry2.dochit.id)
    (apart : ¬ Joins field close (hitsOf first1) (hitsOf first2)) :
    Passes close field (entry1 :: l1) (entry2 :: l2) rest1 rest2 where
  members := split1.members
  same id := by
    by_cases this : id = entry1.dochit.id
    · have none : documentHits rest1 id = [] := by
        apply documentHits_absent
        intro entry member equal
        have greater := split1.greater entry member
        omega
      subst this
      have hits2 := split2.hits_first
      rw [← same] at hits2
      rw [none, split1.hits_first, hits2]
      exact .inr ⟨apart, not_joins_nil_left _⟩
    · exact .inl ⟨split1.hits_rest id this, split2.hits_rest id (same ▸ this)⟩

theorem fewPairs_rest (same : entry1.dochit.id = entry2.dochit.id)
    (few : FewPairs env operation dist close field (entry1 :: l1) (entry2 :: l2)) :
    FewPairs env operation dist close field rest1 rest2 := by
  intro id joins
  by_cases this : id = entry1.dochit.id
  · have none : documentHits rest1 id = [] := by
      apply documentHits_absent
      intro entry member equal
      have greater := split1.greater entry member
      omega
    rw [none] at joins
    exact absurd joins (not_joins_nil_left _)
  · rw [← split1.hits_rest id this, ← split2.hits_rest id (same ▸ this)] at joins ⊢
    exact few id joins

theorem Joined.cons (same : entry1.dochit.id = entry2.dochit.id) {dochits3 out : List Entry}
    {idx3 : Nat} (joins : Joins field close (hitsOf first1) (hitsOf first2))
    (entered : Entered env idx3 entry1.dochit.id
      (pairs operation dist (hitsOf first1) (hitsOf first2)) dochits3)
    (complete : hitsOf dochits3 = pairs operation dist (hitsOf first1) (hitsOf first2))
    (joined : Joined env operation dist close field rest1 rest2 out) :
    Joined env operation dist close field (entry1 :: l1) (entry2 :: l2) (dochits3 ++ out) := by
  have hits2 := split2.hits_first
  rw [← same] at hits2
  have later : ∀ entry ∈ out, entry1.dochit.id < entry.dochit.id := by
    intro entry member
    obtain ⟨other, inside, sameId⟩ := joined.members entry member
    rw [← sameId]
    exact split1.greater other inside
  have here : documentHits (dochits3 ++ out) entry1.dochit.id =
      pairs operation dist (hitsOf first1) (hitsOf first2) := by
    rw [documentHits_append, documentHits_all entered.ids, documentHits_absent
      fun entry member equal => absurd (later entry member) (by omega), List.append_nil, complete]
  have there : ∀ id, id ≠ entry1.dochit.id →
      documentHits (dochits3 ++ out) id = documentHits out id := by
    intro id other
    rw [documentHits_append, documentHits_absent fun entry member equal =>
      other (equal.symm.trans (entered.ids entry member)), List.nil_append]
  refine ⟨?_, ?_, ?_, ?_, ?_, ?_⟩
  · refine List.pairwise_append.mpr ⟨?_, joined.sorted, ?_⟩
    · refine List.Pairwise.imp_of_mem ?_ (List.pairwise_of_forall fun _ _ => trivial)
      intro first second member1 member2 _
      beta_reduce
      rw [entered.ids first member1, entered.ids second member2]
    · intro first member1 second member2
      beta_reduce
      rw [entered.ids first member1]
      exact (later second member2).le
  · intro entry member
    rcases List.mem_append.mp member with new | old
    · exact entered.sound entry new
    · exact joined.sound entry old
  · intro id
    rw [List.filter_append, List.length_append]
    by_cases this : id = entry1.dochit.id
    · have none : out.filter (fun entry => entry.dochit.id = id) = [] := by
        rw [List.filter_eq_nil_iff]
        intro entry member
        have greater := later entry member
        simp only [decide_eq_true_eq]
        omega
      have few := entered.few
      have le := List.length_filter_le (fun entry : Entry => entry.dochit.id = id) dochits3
      rw [none, List.length_nil]
      omega
    · have none : dochits3.filter (fun entry => entry.dochit.id = id) = [] := by
        rw [List.filter_eq_nil_iff]
        intro entry member
        rw [entered.ids entry member, decide_eq_true_eq]
        exact Ne.symm this
      rw [none, List.length_nil, Nat.zero_add]
      exact joined.few id
  · intro entry member
    rcases List.mem_append.mp member with new | old
    · exact ⟨entry1, List.mem_cons_self, (entered.ids entry new).symm⟩
    · obtain ⟨other, inside, sameId⟩ := joined.members entry old
      exact ⟨other, split1.members other inside, sameId⟩
  · intro id joinsHere
    by_cases this : id = entry1.dochit.id
    · rw [this, here, split1.hits_first, hits2]
    · rw [there id this]
      rw [split1.hits_rest id this, split2.hits_rest id (same ▸ this)] at joinsHere ⊢
      exact joined.joined id joinsHere
  · intro id apart
    by_cases this : id = entry1.dochit.id
    · rw [this, split1.hits_first, hits2] at apart
      exact absurd joins apart
    · rw [there id this]
      rw [split1.hits_rest id this, split2.hits_rest id (same ▸ this)] at apart
      exact joined.others id apart

end Step

theorem eachListFrom_spec (finds : operation.Finds dist close) {buffer : Buffer Entry}
    (room : ∀ index, (buffer index).dochit.hits.length = env.build.stdHitsLen)
    {fuel : Nat} {l1 l2 result : List Entry} (formed1 : Formed env.build l1)
    (formed2 : Formed env.build l2) (few : FewPairs env operation dist close field l1 l2)
    (enough : l1.length + l2.length < fuel) (space : result.length < env.maxDocHitsSize) :
    ∃ out, eachListFrom env operation dist field buffer fuel l1 l2 result = .ok (result ++ out) ∧
      (Joined env operation dist close field l1 l2 out ∨
        (result ++ out).length = env.maxDocHitsSize) := by
  induction fuel generalizing l1 l2 result with
  | zero => omega
  | succ fuel induction =>
    cases l1 with
    | nil =>
      exact ⟨[], by rw [List.append_nil]; rfl, .inl (Joined.nil_of_apart fun _ =>
        not_joins_nil_left _)⟩
    | cons entry1 l1 =>
      cases l2 with
      | nil =>
        exact ⟨[], by rw [List.append_nil]; rfl, .inl (Joined.nil_of_apart fun _ =>
          not_joins_nil_right _)⟩
      | cons entry2 l2 =>
        have split1 := formed1.splitsFirst
        have split2 := formed2.splitsFirst
        have shorter1 := @firstDocument_length entry1 l1
        have shorter2 := @firstDocument_length entry2 l2
        rw [List.length_cons, List.length_cons] at enough
        rw [eachListFrom]
        rcases Nat.lt_trichotomy entry1.dochit.id entry2.dochit.id with
          less | same | greater
        · have passes := @passes_first _ close field _ _ _ _ _ _ _ _ split1 split2 less
          rw [if_pos less, checkSize, if_neg (Nat.not_le.mpr space)]
          obtain ⟨out, running, outcome⟩ := induction split1.formed formed2
            (passes.fewPairs few) (by rw [List.length_cons]; omega) space
          exact ⟨out, running, outcome.imp passes.joined id⟩
        · rw [if_neg (by omega), if_neg (by omega)]
          rcases documentEntries_spec finds split1.document split2.document room space
              entry1.dochit.id with
            ⟨apart, entering⟩ | ⟨joins, dochits3, entering, entered⟩
          · have passes := passes_both split1 split2 same apart
            obtain ⟨out, running, outcome⟩ := induction split1.formed split2.formed
              (passes.fewPairs few) (by omega) space
            simp only [bind, Except.bind, entering]
            exact ⟨out, running, outcome.imp passes.joined id⟩
          · have hits2 := split2.hits_first
            rw [← same] at hits2
            have fits := few entry1.dochit.id
            rw [split1.hits_first, hits2] at fits
            have share := entered.few
            have length := @List.length_append _ result dochits3
            simp only [bind, Except.bind, entering, checkSize]
            by_cases full : env.maxDocHitsSize ≤ (result ++ dochits3).length
            · have exactly : (result ++ dochits3).length = env.maxDocHitsSize := by omega
              rw [if_pos full, if_pos exactly]
              exact ⟨dochits3, rfl, .inr exactly⟩
            · rw [if_neg full]
              have complete := (entered.complete (fits joins)).resolve_right (by omega)
              obtain ⟨out, running, outcome⟩ := induction split1.formed split2.formed
                (fewPairs_rest split1 split2 same few) (by omega) (Nat.lt_of_not_le full)
              rw [List.append_assoc] at running outcome
              exact ⟨dochits3 ++ out, running, outcome.imp
                (Joined.cons split1 split2 same joins entered complete) id⟩
        · have passes := @passes_second _ close field _ _ _ _ _ _ _ _ split1 split2 greater
          rw [if_neg (by omega), if_pos greater, checkSize, if_neg (Nat.not_le.mpr space)]
          obtain ⟨out, running, outcome⟩ := induction formed1 split2.formed
            (passes.fewPairs few) (by rw [List.length_cons]; omega) space
          exact ⟨out, running, outcome.imp passes.joined id⟩

end Lists

end Wisebot.Proximity
