import Wisebot.Rmac.InOrder

namespace Wisebot.Rmac

open Lib

/-! What the order means for the index: the docids are appended in increasing
order, each at most once, so a sorted posting list stays sorted. -/

variable {size : Nat} {Word : Type}

def State.replies (state : State size Word) : List (Nat × Option Int) :=
  state.connections.map fun connection => (connection.docid, connection.ret)

/-- What the indexer has written is the same, and what it is asked for grows by
connections that have no answer yet. -/
structure IndexKept (state next : State size Word) : Prop where
  lastIndexed : next.lastIndexedDocid = state.lastIndexedDocid
  indexed : next.indexed = state.indexed
  errors : next.errorDocuments = state.errorDocuments
  indexer : next.indexer = state.indexer
  served : next.served = state.served
  owners : state.owners <+: next.owners
  replies : ∀ reply ∈ next.replies, reply ∈ state.replies ∨ reply.2 = none

theorem IndexKept.setSlot (state : State size Word) (slot : Fin size) (value : Slot)
    (lastFetched : Nat) (fetched : List (Fin size × Nat)) :
    IndexKept state { state.setSlot slot value with
      lastFetchedDocid := lastFetched, fetched := fetched } :=
  ⟨rfl, rfl, rfl, rfl, rfl, List.prefix_refl _, fun _ => Or.inl⟩

theorem IndexKept.setPhase (state : State size Word) (slot : Fin size) (phase : Phase) :
    IndexKept state (state.setPhase slot phase) :=
  IndexKept.setSlot state slot _ _ _

theorem IndexKept.setProgress (state : State size Word) (connection : Nat)
    (progress : Progress) : IndexKept state (state.setProgress connection progress) where
  lastIndexed := rfl
  indexed := rfl
  errors := rfl
  indexer := rfl
  served := rfl
  owners := (Served.setProgress state connection progress).owners ▸ List.prefix_refl _
  replies := by
    have same : (state.setProgress connection progress).replies = state.replies := by
      rw [State.replies, State.setProgress]
      exact map_modify_of_eq (by intro old; rfl) _ _
    exact fun reply member => Or.inl (same ▸ member)

theorem IndexKept.trans {state middle next : State size Word} (first : IndexKept state middle)
    (second : IndexKept middle next) : IndexKept state next where
  lastIndexed := second.lastIndexed.trans first.lastIndexed
  indexed := second.indexed.trans first.indexed
  errors := second.errors.trans first.errors
  indexer := second.indexer.trans first.indexer
  served := second.served.trans first.served
  owners := first.owners.trans second.owners
  replies := by
    intro reply member
    rcases second.replies reply member with before | new
    · exact first.replies reply before
    · exact Or.inr new

theorem IndexKept.append (state : State size Word) {made : Connection size}
    (unanswered : made.ret = none) :
    IndexKept state { state with connections := state.connections ++ [made] } where
  lastIndexed := rfl
  indexed := rfl
  errors := rfl
  indexer := rfl
  served := rfl
  owners := by simp [State.owners]
  replies := by
    intro reply member
    rw [State.replies, List.map_append] at member
    rcases List.mem_append.mp member with before | new
    · exact Or.inl before
    · rw [List.mem_singleton.mp new]
      exact Or.inr unanswered

theorem IndexKept.connect (state : State size Word) (slot : Fin size) (docid : Nat)
    (rmasData : Option (List UInt8)) : IndexKept state (state.connect slot docid rmasData) :=
  (IndexKept.setPhase state slot _).trans (IndexKept.append _ rfl)

theorem IndexKept.startSlot (state : State size Word) (slot : Fin size) :
    IndexKept state (state.startSlot slot) := by
  rw [State.startSlot]
  split
  · exact IndexKept.setSlot state slot _ _ _
  · exact IndexKept.setPhase state slot _

theorem IndexKept.getDocidToIndex (state : State size Word) (slot : Fin size)
    (lastRegistered : Nat) : IndexKept state (state.getDocidToIndex slot lastRegistered) := by
  rw [State.getDocidToIndex]
  split
  · exact IndexKept.setSlot state slot _ _ _
  · exact IndexKept.setPhase state slot _

theorem slotStep_indexKept {state next : State size Word} {slot : Fin size} {phase : Phase}
    {label : Label size} (stepped : slotStep state slot phase label = some next) :
    IndexKept state next := by
  revert stepped
  fun_cases slotStep state slot phase label <;> rintro ⟨⟩
  case case1 => exact IndexKept.startSlot state slot
  case case2 lastRegistered => exact IndexKept.getDocidToIndex state slot lastRegistered.toNat
  case case8 => exact ⟨rfl, rfl, rfl, rfl, rfl, List.prefix_refl _, fun _ => Or.inl⟩
  case case11 => exact IndexKept.connect state slot _ _
  case case12 | case13 => exact (IndexKept.setPhase _ _ _).trans (IndexKept.setProgress _ _ _)
  case case19 => exact IndexKept.setSlot state slot _ _ _
  all_goals exact IndexKept.setPhase _ _ _

/-- `last_indexed_docid` does not go back, and what is appended is beyond it. -/
structure Advances (state next : State size Word) : Prop where
  lastIndexed : state.lastIndexedDocid ≤ next.lastIndexedDocid
  indexed : ∀ document ∈ next.indexed,
    document ∈ state.indexed ∨ state.lastIndexedDocid < document.1

theorem InOrder.first_docid {state : State size Word} (inOrder : InOrder state)
    {connection : Connection size}
    (found : state.connections[state.served]? = some connection) :
    state.lastIndexedDocid ≤ connection.docid := by
  have owner : state.owners[state.served]? = some (connection.slot, connection.docid) := by
    rw [State.owners, List.getElem?_map, found]
    rfl
  obtain ⟨holding, -, -⟩ := inOrder.first owner
  have published : state.docid connection.slot = connection.docid := holding.published
  rw [← published]
  exact inOrder.least connection.slot (published.symm ▸ holding.isDocument)

section Order

variable (indexWords : List UInt8 → List Word)

theorem Advances.index {state : State size Word} {connection : Connection size}
    (newer : state.lastIndexedDocid ≤ connection.docid) (ret : Int) :
    Advances state (state.index indexWords connection ret) := by
  rw [State.index]
  split
  · exact ⟨newer, fun _ => Or.inl⟩
  split
  · exact ⟨le_refl _, fun _ => Or.inl⟩
  split
  · exact ⟨le_refl _, fun _ => Or.inl⟩
  case isFalse.isFalse.isFalse above =>
    refine ⟨le_refl _, fun document member => ?_⟩
    rcases List.mem_append.mp member with before | new
    · exact Or.inl before
    · rw [List.mem_singleton.mp new]
      exact Or.inr (not_le.mp above)

theorem InOrder.advances {state next : State size Word} (inOrder : InOrder state)
    {label : Label size} (stepped : Rmac.step indexWords state label = some next) :
    Advances state next := by
  rw [Rmac.step] at stepped
  cases isSlot : label.slot? with
  | some slot =>
    rw [isSlot] at stepped
    have kept := slotStep_indexKept stepped
    exact ⟨le_of_eq kept.lastIndexed.symm, fun _ => kept.indexed ▸ Or.inl⟩
  | none =>
    rw [isSlot] at stepped
    have holds := inOrder.indexer
    dsimp only at stepped
    generalize state.indexer = phase at stepped holds
    revert stepped
    fun_cases indexerStep indexWords state phase label <;> rintro ⟨⟩
    case case1 => exact ⟨le_refl _, fun _ => Or.inl⟩
    case case5 fails connection found ret _ =>
      exact Advances.index indexWords (inOrder.first_docid found) ret
    case case6 => exact ⟨le_refl _, fun _ => Or.inl⟩
    case case7 => exact ⟨le_of_lt holds.1, fun _ => Or.inl⟩

theorem lt_of_mem_indexed {allowed : State size Word → Label size → Prop} {lastIndexed : UInt32}
    {state : State size Word}
    (reached : Reach (step indexWords) allowed (startState size Word lastIndexed) state) :
    lastIndexed.toNat ≤ state.lastIndexedDocid ∧
      ∀ document ∈ state.indexed, lastIndexed.toNat < document.1 := by
  induction reached with
  | start => exact ⟨le_refl _, by simp [startState]⟩
  | step label reachedBefore _ stepped induction =>
    obtain ⟨above, beyond⟩ := induction
    have advances := (InOrder.of_reach indexWords reachedBefore).advances indexWords stepped
    refine ⟨le_trans above advances.lastIndexed, fun document member => ?_⟩
    rcases advances.indexed document member with before | new
    · exact beyond document before
    · exact lt_of_le_of_lt above new

variable [DecidableEq Word]

theorem postings_sublist (state : State size Word) (word : Word) :
    (state.postings word).Sublist (state.indexed.map Prod.fst) :=
  List.Sublist.map Prod.fst List.filter_sublist

/-- Over every order of steps `last_indexed_docid` does not go back, the docids are
appended in increasing order, and a posting list that was sorted, with docids up
to the one that the run started behind, is sorted with what the run appends. -/
theorem documents_indexed_in_order {lastIndexed : UInt32} {state : State size Word}
    (reached : Reach (step indexWords) (fun _ _ => True) (startState size Word lastIndexed)
      state) :
    (∀ label next, step indexWords state label = some next →
      state.lastIndexedDocid ≤ next.lastIndexedDocid) ∧
    (state.indexed.map Prod.fst).Pairwise (· < ·) ∧
    ∀ word before, before.Pairwise (· ≤ ·) → (∀ docid ∈ before, docid ≤ lastIndexed.toNat) →
      (before ++ state.postings word).Pairwise (· ≤ ·) := by
  have inOrder := InOrder.of_reach indexWords reached
  refine ⟨fun label next stepped => (inOrder.advances indexWords stepped).lastIndexed,
    inOrder.sorted, fun word before sorted small => ?_⟩
  rw [List.pairwise_append]
  refine ⟨sorted, ?_, fun old isOld new isNew => ?_⟩
  · have increasing := inOrder.sorted.sublist (postings_sublist state word)
    exact increasing.imp le_of_lt
  · obtain ⟨document, member, rfl⟩ :=
      List.mem_map.mp ((postings_sublist state word).subset isNew)
    have beyond := (lt_of_mem_indexed indexWords reached).2 document member
    exact le_trans (small old isOld) (le_of_lt beyond)

end Order

/-- Two documents by two slots. The answer to the first one is lost, its slot dies
and sends the docid again with no data. -/
def restartedRun : List (Label 2) :=
  [.start 0, .fetch 0 2, .start 1, .fetch 1 2, .analyze 1 (some [8]), .checkMinimum 1,
    .analyze 0 (some [7]), .checkMinimum 0, .send 0, .connect 0, .sendHeader 0, .sendData 0,
    .accept, .recv false, .giveUp 0, .die 0, .reply, .respawn 0, .start 0, .leftover 0,
    .checkMinimum 0, .send 0, .connect 0, .sendHeader 0, .update, .accept, .recv false, .reply,
    .receive 0, .setNodoc 0, .checkMinimum 1, .send 1, .connect 1, .sendHeader 1, .sendData 1,
    .accept, .recv false, .reply, .receive 1, .update, .setNodoc 1]

theorem documents_indexed_in_order_restarted :
    ∃ state, runSchedule (step id) (startState 2 UInt8 0) restartedRun = some state ∧
      state.indexed = [(1, [7]), (2, [8])] ∧
      (∀ label next, step id state label = some next →
        state.lastIndexedDocid ≤ next.lastIndexedDocid) ∧
      (state.indexed.map Prod.fst).Pairwise (· < ·) ∧
      ∀ word before, before.Pairwise (· ≤ ·) → (∀ docid ∈ before, docid ≤ 0) →
        (before ++ state.postings word).Pairwise (· ≤ ·) := by
  have indexed : (runSchedule (step id) (startState 2 UInt8 0) restartedRun).map
      State.indexed = some [(1, [7]), (2, [8])] := by decide +kernel
  obtain ⟨state, ran, isIndexed⟩ := Option.map_eq_some_iff.mp indexed
  exact ⟨state, ran, isIndexed,
    documents_indexed_in_order id (Reach.of_runSchedule restartedRun Reach.start ran)⟩

end Wisebot.Rmac
