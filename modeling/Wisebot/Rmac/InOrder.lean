import Mathlib.Data.List.Pairwise
import Wisebot.Rmac.Pipeline

namespace Wisebot.Rmac

open Lib

/-! The order in which documents reach the index: only a slot with the least docid
of all sends, and it keeps that docid until none of its connections waits. -/

variable {size : Nat} {Word : Type} {state next : State size Word} {slot : Fin size}

def State.owners (state : State size Word) : List (Fin size × Nat) :=
  state.connections.map fun connection => (connection.slot, connection.docid)

def State.unserved (state : State size Word) : List (Fin size × Nat) :=
  state.owners.drop state.served

def State.answers (state : State size Word) : List (Option Int) :=
  state.connections.map Connection.ret

def State.Least (state : State size Word) (docid : Nat) : Prop :=
  ∀ slot, state.docid slot ≠ noDocument → docid ≤ state.docid slot

structure State.Holds (state : State size Word) (slot : Fin size) (docid : Nat) : Prop where
  published : state.docid slot = docid
  isDocument : docid ≠ noDocument

def State.Clear (state : State size Word) (slot : Fin size) : Prop :=
  ∀ owner ∈ state.unserved, owner.1 ≠ slot

structure State.Latest (state : State size Word) (slot : Fin size) (docid connection : Nat) :
    Prop where
  made : state.owners[connection]? = some (slot, docid)
  last : ∀ owner ∈ state.owners.drop (connection + 1), owner.1 ≠ slot

def PhaseHolds (state : State size Word) (slot : Fin size) : Phase → Prop
  | .dead | .started => True
  | .polling docid => state.docid slot = docid
  | .analyzing docid => state.Holds slot docid ∧ state.Clear slot
  | .waiting docid rmasData =>
    state.Holds slot docid ∧ (rmasData ≠ none → state.Clear slot)
  | .sending docid rmasData =>
    state.Holds slot docid ∧ (rmasData ≠ none → state.Clear slot) ∧ state.Least docid
  | .connecting docid _ => state.Holds slot docid ∧ state.Least docid
  | .connected docid _ connection | .headed docid _ connection | .awaiting docid _ connection =>
    state.Holds slot docid ∧ state.Least docid ∧ state.Latest slot docid connection
  | .sent docid _ => state.Holds slot docid ∧ state.Clear slot

/-- No process is in the loop of `process_main`. -/
def Phase.Resting (phase : Phase) : Prop := phase = .dead ∨ phase = .started

theorem PhaseHolds.transfer {phase : Phase} (holds : PhaseHolds state slot phase)
    (published : next.docid slot = state.docid slot)
    (least : state.docid slot ≠ noDocument → state.Least (state.docid slot) →
      next.Least (state.docid slot)) (clear : state.Clear slot → next.Clear slot)
    (latest : ∀ docid connection, state.Latest slot docid connection →
      next.Latest slot docid connection) :
    PhaseHolds next slot phase := by
  have keeps : ∀ docid, state.Holds slot docid → next.Holds slot docid := fun docid holding =>
    ⟨published.trans holding.published, holding.isDocument⟩
  have keepsLeast : ∀ docid, state.Holds slot docid → state.Least docid → next.Least docid := by
    rintro docid ⟨rfl, isDocument⟩ isLeast
    exact least isDocument isLeast
  cases phase with
  | dead => trivial
  | started => trivial
  | polling docid => exact published.trans holds
  | analyzing docid => exact ⟨keeps docid holds.1, clear holds.2⟩
  | waiting docid rmasData =>
    exact ⟨keeps docid holds.1, fun normal => clear (holds.2 normal)⟩
  | sending docid rmasData =>
    exact ⟨keeps docid holds.1, fun normal => clear (holds.2.1 normal),
      keepsLeast docid holds.1 holds.2.2⟩
  | connecting docid rmasData => exact ⟨keeps docid holds.1, keepsLeast docid holds.1 holds.2⟩
  | connected docid rmasData connection =>
    exact ⟨keeps docid holds.1, keepsLeast docid holds.1 holds.2.1, latest _ _ holds.2.2⟩
  | headed docid rmasData connection =>
    exact ⟨keeps docid holds.1, keepsLeast docid holds.1 holds.2.1, latest _ _ holds.2.2⟩
  | awaiting docid rmasData connection =>
    exact ⟨keeps docid holds.1, keepsLeast docid holds.1 holds.2.1, latest _ _ holds.2.2⟩
  | sent docid ret => exact ⟨keeps docid holds.1, clear holds.2⟩

def IndexerHolds (state : State size Word) : IndexerPhase → Prop
  | .accepting => True
  | .receiving | .replying _ none => state.served < state.owners.length
  | .replying _ (some docid) =>
    (∃ slot, state.owners[state.served]? = some (slot, docid)) ∧
      state.lastIndexedDocid < docid
  | .updating docid =>
    state.lastIndexedDocid < docid ∧ docid ≤ state.lastFetchedDocid ∧ state.Least docid

theorem IndexerHolds.transfer {phase : IndexerPhase} (holds : IndexerHolds state phase)
    (served : next.served = state.served)
    (lastIndexed : next.lastIndexedDocid = state.lastIndexedDocid)
    (owners : state.owners <+: next.owners) (grows : state.lastFetchedDocid ≤ next.lastFetchedDocid)
    (least : ∀ docid, docid ≤ state.lastFetchedDocid → state.Least docid → next.Least docid) :
    IndexerHolds next phase := by
  have waits : state.served < state.owners.length → next.served < next.owners.length := by
    intro before
    rw [served]
    exact lt_of_lt_of_le before owners.length_le
  cases phase with
  | accepting => trivial
  | receiving => exact waits holds
  | replying ret indexed =>
    cases indexed with
    | none => exact waits holds
    | some docid =>
      obtain ⟨⟨slot, made⟩, above⟩ := holds
      obtain ⟨inside, owner⟩ := List.getElem?_eq_some_iff.mp made
      have isMade : next.owners[next.served]? = some (slot, docid) := by
        rw [served, List.prefix_iff_getElem?.mp owners _ inside, owner]
      exact ⟨⟨slot, isMade⟩, lastIndexed ▸ above⟩
  | updating docid =>
    obtain ⟨above, before, isLeast⟩ := holds
    exact ⟨lastIndexed ▸ above, le_trans before grows, least docid before isLeast⟩

/-- The docid that `last_indexed_docid` has or is about to get. -/
def State.newest (state : State size Word) : Nat :=
  match state.indexer with
  | .replying _ (some docid) | .updating docid => docid
  | _ => state.lastIndexedDocid

structure InOrder (state : State size Word) : Prop where
  phases : ∀ slot, PhaseHolds state slot (state.slots slot).phase
  notInit : ∀ slot, (state.slots slot).notInit = true →
    state.docid slot = noDocument ∧ (state.slots slot).phase.Resting
  fetched : ∀ slot, state.docid slot ≠ noDocument → state.docid slot ≤ state.lastFetchedDocid
  small : state.lastFetchedDocid < 2 ^ 32
  below : state.lastIndexedDocid ≤ state.lastFetchedDocid
  least : state.Least state.lastIndexedDocid
  unserved : ∀ owner ∈ state.unserved, state.Holds owner.1 owner.2 ∧ state.Least owner.2
  served : state.served ≤ state.owners.length
  unanswered : ∀ ret ∈ state.answers.drop state.served, ret = none
  indexer : IndexerHolds state state.indexer
  sorted : (state.indexed.map Prod.fst).Pairwise (· < ·)
  bounded : ∀ document ∈ state.indexed, document.1 ≤ state.newest

theorem InOrder.start (size : Nat) (Word : Type) (lastIndexed : UInt32) :
    InOrder (startState size Word lastIndexed) where
  phases := fun _ => trivial
  notInit := fun _ _ => ⟨rfl, Or.inr rfl⟩
  fetched := fun _ busy => absurd rfl busy
  small := lastIndexed.toNat_lt
  below := le_refl _
  least := fun _ busy => absurd rfl busy
  unserved := by simp [State.unserved, State.owners, startState]
  served := le_refl _
  unanswered := by simp [State.answers, startState]
  indexer := trivial
  sorted := List.Pairwise.nil
  bounded := by simp [startState]

theorem docid_setSlot_self (state : State size Word) (slot : Fin size) (value : Slot) :
    (state.setSlot slot value).docid slot = getDocid value.desc := by
  rw [State.docid, State.setSlot]
  simp only [Function.update_self]

theorem docid_setSlot_of_ne (state : State size Word) {other : Fin size} (value : Slot)
    (different : other ≠ slot) : (state.setSlot slot value).docid other = state.docid other := by
  rw [State.docid, State.setSlot]
  simp only [Function.update_of_ne different]
  rfl

@[simp] theorem docid_setPhase (state : State size Word) (slot other : Fin size) (phase : Phase) :
    (state.setPhase slot phase).docid other = state.docid other := by
  by_cases same : other = slot
  · subst same
    exact docid_setSlot_self state other _
  · exact docid_setSlot_of_ne state _ same

theorem State.Least.of_docid {docid : Nat} (least : state.Least docid)
    (docids : ∀ slot, next.docid slot = state.docid slot) :
    next.Least docid := by
  intro slot busy
  rw [docids slot] at busy ⊢
  exact least slot busy

theorem PhaseHolds.setPhase {other : Fin size} {phase : Phase}
    (holds : PhaseHolds state other phase) (slot : Fin size) (moved : Phase) :
    PhaseHolds (state.setPhase slot moved) other phase :=
  holds.transfer (docid_setPhase state slot other moved)
    (fun _ least => least.of_docid fun _ => docid_setPhase _ _ _ _) id
    fun _ _ latest => ⟨latest.made, latest.last⟩

theorem InOrder.setPhase (inOrder : InOrder state) {phase : Phase}
    (initialized : (state.slots slot).notInit = true → phase.Resting)
    (holds : PhaseHolds state slot phase) :
    InOrder (state.setPhase slot phase) where
  phases := by
    intro other
    by_cases same : other = slot
    · subst same
      simp only [State.setPhase, State.setSlot, Function.update_self]
      exact holds.setPhase other phase
    · simp only [State.setPhase, State.setSlot, Function.update_of_ne same]
      exact (inOrder.phases other).setPhase slot phase
  notInit := by
    intro other marked
    rw [docid_setPhase]
    by_cases same : other = slot
    · subst same
      simp only [State.setPhase, State.setSlot, Function.update_self] at marked ⊢
      exact ⟨(inOrder.notInit other marked).1, initialized marked⟩
    · simp only [State.setPhase, State.setSlot, Function.update_of_ne same] at marked ⊢
      exact inOrder.notInit other marked
  fetched := fun other => by
    rw [docid_setPhase]
    exact inOrder.fetched other
  small := inOrder.small
  below := inOrder.below
  least := inOrder.least.of_docid fun _ => docid_setPhase _ _ _ _
  unserved := by
    intro owner member
    obtain ⟨holding, least⟩ := inOrder.unserved owner member
    exact ⟨⟨(docid_setPhase _ _ _ _).trans holding.published, holding.isDocument⟩,
      least.of_docid fun _ => docid_setPhase _ _ _ _⟩
  served := inOrder.served
  unanswered := inOrder.unanswered
  indexer := inOrder.indexer.transfer rfl rfl (List.prefix_refl _) (le_refl _)
    fun _ _ least => least.of_docid fun _ => docid_setPhase _ _ _ _
  sorted := inOrder.sorted
  bounded := inOrder.bounded

theorem InOrder.clear_of_idle (inOrder : InOrder state) (idle : state.docid slot = noDocument) :
    state.Clear slot := by
  rintro owner member rfl
  obtain ⟨holding, -⟩ := inOrder.unserved owner member
  exact holding.isDocument (holding.published.symm.trans idle)

theorem State.Least.setSlot {docid : Nat} (least : state.Least docid) (slot : Fin size)
    (value : Slot) (above : getDocid value.desc ≠ noDocument → docid ≤ getDocid value.desc) :
    (state.setSlot slot value).Least docid := by
  intro other busy
  by_cases same : other = slot
  · subst same
    rw [docid_setSlot_self] at busy ⊢
    exact above busy
  · rw [docid_setSlot_of_ne state value same] at busy ⊢
    exact least other busy

/-- A slot of which no connection waits may publish another docid, if that is none
or above all that were fetched before. -/
theorem InOrder.publish (inOrder : InOrder state) (clear : state.Clear slot) (value : Slot)
    {lastFetched : Nat} (above : getDocid value.desc ≠ noDocument →
      state.lastFetchedDocid ≤ getDocid value.desc ∧ getDocid value.desc ≤ lastFetched)
    (initialized : value.notInit = false)
    (holds : PhaseHolds (state.setSlot slot value) slot value.phase)
    (grows : state.lastFetchedDocid ≤ lastFetched) (small : lastFetched < 2 ^ 32)
    (fetched : List (Fin size × Nat)) :
    InOrder { state.setSlot slot value with
      lastFetchedDocid := lastFetched, fetched := fetched } := by
  have keepsLeast : ∀ docid, docid ≤ state.lastFetchedDocid → state.Least docid →
      (state.setSlot slot value).Least docid := fun docid before least =>
    least.setSlot slot value fun busy => le_trans before (above busy).1
  have others : ∀ other, other ≠ slot → PhaseHolds (state.setSlot slot value) other
      (state.slots other).phase := fun other different =>
    (inOrder.phases other).transfer (docid_setSlot_of_ne state value different)
      (fun busy least => keepsLeast _ (inOrder.fetched other busy) least) id
      fun _ _ latest => ⟨latest.made, latest.last⟩
  refine
    { phases := ?_, notInit := ?_, fetched := ?_, small := small
      below := le_trans inOrder.below grows
      least := keepsLeast _ inOrder.below inOrder.least
      unserved := ?_, served := inOrder.served, unanswered := inOrder.unanswered, indexer := ?_
      sorted := inOrder.sorted, bounded := inOrder.bounded }
  · intro other
    by_cases same : other = slot
    · subst same
      simp only [State.setSlot, Function.update_self]
      exact holds.transfer rfl (fun _ least => least) id
        fun _ _ latest => ⟨latest.made, latest.last⟩
    · simp only [State.setSlot, Function.update_of_ne same]
      exact (others other same).transfer rfl (fun _ least => least) id
        fun _ _ latest => ⟨latest.made, latest.last⟩
  · intro other marked
    by_cases same : other = slot
    · subst same
      simp only [State.setSlot, Function.update_self] at marked
      exact absurd marked (by simp [initialized])
    · simp only [State.setSlot, Function.update_of_ne same] at marked ⊢
      obtain ⟨idle, resting⟩ := inOrder.notInit other marked
      exact ⟨(docid_setSlot_of_ne state value same).trans idle, resting⟩
  · intro other busy
    change (state.setSlot slot value).docid other ≠ noDocument at busy
    change (state.setSlot slot value).docid other ≤ lastFetched
    by_cases same : other = slot
    · subst same
      rw [docid_setSlot_self] at busy ⊢
      exact (above busy).2
    · rw [docid_setSlot_of_ne state value same] at busy ⊢
      exact le_trans (inOrder.fetched other busy) grows
  · intro owner member
    obtain ⟨holding, least⟩ := inOrder.unserved owner member
    have published := docid_setSlot_of_ne state value (clear owner member)
    have busy : state.docid owner.1 ≠ noDocument := holding.published ▸ holding.isDocument
    have before := holding.published ▸ inOrder.fetched owner.1 busy
    exact ⟨⟨published.trans holding.published, holding.isDocument⟩, keepsLeast _ before least⟩
  · exact inOrder.indexer.transfer rfl rfl (List.prefix_refl _) grows keepsLeast

theorem InOrder.initialized (inOrder : InOrder state)
    (active : ¬ (state.slots slot).phase.Resting) :
    (state.slots slot).notInit = false := by
  by_contra marked
  exact active (inOrder.notInit slot (by simpa using marked)).2

theorem InOrder.idle (inOrder : InOrder state) (clear : state.Clear slot) :
    InOrder (state.setSlot slot ⟨setDocid noDocument, false, .polling noDocument⟩) :=
  inOrder.publish clear ⟨setDocid noDocument, false, .polling noDocument⟩
    (fun busy => absurd rfl busy) rfl (docid_setSlot_self state slot _)
    (le_refl _) inOrder.small state.fetched

theorem InOrder.startSlot (inOrder : InOrder state) (slot : Fin size) :
    InOrder (state.startSlot slot) := by
  rw [State.startSlot]
  split
  case isTrue notInit =>
    exact inOrder.idle (inOrder.clear_of_idle (inOrder.notInit slot notInit).1)
  case isFalse initialized =>
    exact inOrder.setPhase (fun marked => absurd marked initialized) rfl

theorem InOrder.getDocidToIndex (inOrder : InOrder state) (idle : state.docid slot = noDocument)
    (initialized : (state.slots slot).notInit = false) {lastRegistered : Nat}
    (small : lastRegistered < 2 ^ 32) :
    InOrder (state.getDocidToIndex slot lastRegistered) := by
  rw [State.getDocidToIndex]
  split
  case isTrue more =>
    have published : getDocid (setDocid (state.lastFetchedDocid + 1)) =
        state.lastFetchedDocid + 1 := getDocid_setDocid (Nat.succ_pos _) (by omega)
    have clear := inOrder.clear_of_idle idle
    refine inOrder.publish clear
      ⟨setDocid (state.lastFetchedDocid + 1), (state.slots slot).notInit,
        if 2 ^ 31 ≤ state.lastFetchedDocid + 1 then .polling (state.lastFetchedDocid + 1)
        else .analyzing (state.lastFetchedDocid + 1)⟩
      ?_ initialized ?_ (Nat.le_succ _) (by omega) _
    · intro _
      dsimp only
      omega
    · dsimp only
      split
      case isTrue negative => exact (docid_setSlot_self state slot _).trans published
      case isFalse notNegative =>
        exact ⟨⟨(docid_setSlot_self state slot _).trans published, by
          rw [noDocument]
          omega⟩, clear⟩
  case isFalse =>
    exact inOrder.setPhase (fun marked => absurd marked (by simp [initialized])) idle

theorem InOrder.append (inOrder : InOrder state) {made : Connection size}
    {rmasData : Option (List UInt8)}
    (connecting : (state.slots made.slot).phase = .connecting made.docid rmasData)
    (unanswered : made.ret = none) :
    InOrder { state with connections := state.connections ++ [made] } := by
  have own := inOrder.phases made.slot
  rw [connecting] at own
  obtain ⟨holding, least⟩ := own
  have owners : State.owners { state with connections := state.connections ++ [made] } =
      state.owners ++ [(made.slot, made.docid)] := by
    simp [State.owners]
  have unserved : State.unserved { state with connections := state.connections ++ [made] } =
      state.unserved ++ [(made.slot, made.docid)] := by
    rw [State.unserved, owners, List.drop_append_of_le_length inOrder.served]
    rfl
  refine
    { inOrder with
      phases := ?_, unserved := ?_, served := ?_, unanswered := ?_, indexer := ?_ }
  · intro slot
    by_cases same : slot = made.slot
    · subst same
      change PhaseHolds _ made.slot (state.slots made.slot).phase
      rw [connecting]
      exact ⟨⟨holding.published, holding.isDocument⟩, least⟩
    · refine (inOrder.phases slot).transfer rfl (fun _ isLeast => isLeast) ?_ ?_
      · intro clear owner member
        rw [unserved] at member
        rcases List.mem_append.mp member with before | new
        · exact clear owner before
        · rw [List.mem_singleton.mp new]
          exact fun other => same other.symm
      · intro docid connection latest
        obtain ⟨inside, -⟩ := List.getElem?_eq_some_iff.mp latest.made
        refine ⟨?_, fun owner member => ?_⟩
        · rw [owners, List.getElem?_append_left inside]
          exact latest.made
        · rw [owners, List.drop_append_of_le_length inside] at member
          rcases List.mem_append.mp member with before | new
          · exact latest.last owner before
          · rw [List.mem_singleton.mp new]
            exact fun other => same other.symm
  · intro owner member
    rw [unserved] at member
    rcases List.mem_append.mp member with before | new
    · obtain ⟨holds, isLeast⟩ := inOrder.unserved owner before
      exact ⟨⟨holds.published, holds.isDocument⟩, isLeast⟩
    · rw [List.mem_singleton.mp new]
      exact ⟨⟨holding.published, holding.isDocument⟩, least⟩
  · rw [owners, List.length_append]
    exact le_trans inOrder.served (Nat.le_add_right _ _)
  · intro ret member
    rw [State.answers, List.map_append, List.drop_append_of_le_length
      (by simpa [State.owners] using inOrder.served)] at member
    rcases List.mem_append.mp member with before | new
    · exact inOrder.unanswered ret before
    · rw [List.mem_singleton.mp new, unanswered]
  · refine inOrder.indexer.transfer rfl rfl ?_ (le_refl _) fun _ _ isLeast => isLeast
    rw [owners]
    exact List.prefix_append _ _

theorem InOrder.connect (inOrder : InOrder state) {docid : Nat} {rmasData : Option (List UInt8)}
    (connecting : (state.slots slot).phase = .connecting docid rmasData) :
    InOrder (state.connect slot docid rmasData) := by
  have own := inOrder.phases slot
  rw [connecting] at own
  obtain ⟨holding, least⟩ := own
  have active : ¬ (state.slots slot).phase.Resting := by simp [connecting, Phase.Resting]
  have made : InOrder { state with
      connections := state.connections ++
        [⟨slot, docid, headerLength rmasData, rmasData.getD [], .nothing, none⟩] } :=
    inOrder.append connecting rfl
  have initialized : (state.slots slot).notInit = true →
      (Phase.connected docid rmasData state.connections.length).Resting := fun marked =>
    absurd marked (by simp [inOrder.initialized active])
  refine made.setPhase initialized ?_
  refine ⟨⟨holding.published, holding.isDocument⟩, least, ?_, ?_⟩
  · simp [State.owners]
  · intro owner member
    rw [List.drop_eq_nil_of_le (by simp [State.owners])] at member
    exact absurd member (by simp)

theorem map_modify_of_eq {α β : Type} {value : α → β} {change : α → α}
    (same : ∀ item, value (change item) = value item) (items : List α) (index : Nat) :
    (items.modify index change).map value = items.map value := by
  apply List.ext_getElem?
  intro place
  rw [List.getElem?_map, List.getElem?_map, List.getElem?_modify]
  cases items[place]? with
  | none => rfl
  | some item =>
    by_cases here : index = place
    · simp [here, same]
    · simp [here]

/-- The slots, the counter and the connections are the same, more are served. -/
structure Served (state next : State size Word) : Prop where
  slots : next.slots = state.slots
  lastFetched : next.lastFetchedDocid = state.lastFetchedDocid
  owners : next.owners = state.owners
  answers : next.answers.drop next.served = state.answers.drop next.served
  later : state.served ≤ next.served

theorem Served.docid (served : Served state next) (slot : Fin size) :
    next.docid slot = state.docid slot := by
  rw [State.docid, served.slots]
  rfl

theorem Served.least (served : Served state next) {docid : Nat} (least : state.Least docid) :
    next.Least docid :=
  least.of_docid served.docid

theorem Served.unserved (served : Served state next) :
    next.unserved ⊆ state.unserved := by
  rw [State.unserved, State.unserved, served.owners]
  exact (List.drop_sublist_drop_left _ served.later).subset

theorem InOrder.served_step (inOrder : InOrder state) (served : Served state next)
    (inside : next.served ≤ next.owners.length)
    (below : next.lastIndexedDocid ≤ next.lastFetchedDocid)
    (least : next.Least next.lastIndexedDocid) (indexer : IndexerHolds next next.indexer)
    (sorted : (next.indexed.map Prod.fst).Pairwise (· < ·))
    (bounded : ∀ document ∈ next.indexed, document.1 ≤ next.newest) : InOrder next where
  phases := by
    intro slot
    rw [served.slots]
    exact (inOrder.phases slot).transfer (served.docid slot) (fun _ => served.least)
      (fun clear owner member => clear owner (served.unserved member))
      fun _ _ latest => ⟨served.owners ▸ latest.made, served.owners ▸ latest.last⟩
  notInit := by
    intro slot marked
    rw [served.docid, served.slots]
    exact inOrder.notInit slot (by rwa [served.slots] at marked)
  fetched := by
    intro slot busy
    rw [served.docid] at busy ⊢
    exact served.lastFetched ▸ inOrder.fetched slot busy
  small := served.lastFetched ▸ inOrder.small
  below := below
  least := least
  unserved := by
    intro owner member
    obtain ⟨holding, isLeast⟩ := inOrder.unserved owner (served.unserved member)
    exact ⟨⟨(served.docid owner.1).trans holding.published, holding.isDocument⟩,
      served.least isLeast⟩
  served := inside
  unanswered := by
    intro ret member
    rw [served.answers] at member
    exact inOrder.unanswered ret ((List.drop_sublist_drop_left _ served.later).subset member)
  indexer := indexer
  sorted := sorted
  bounded := bounded

theorem Served.setProgress (state : State size Word) (connection : Nat) (progress : Progress) :
    Served state (state.setProgress connection progress) where
  slots := rfl
  lastFetched := rfl
  owners := by
    rw [State.owners, State.setProgress]
    exact map_modify_of_eq (by intro old; rfl) _ _
  answers := by
    rw [State.answers, State.setProgress]
    exact congrArg _ (map_modify_of_eq (by intro old; rfl) _ _)
  later := le_refl _

theorem InOrder.setProgress (inOrder : InOrder state) (connection : Nat) (progress : Progress) :
    InOrder (state.setProgress connection progress) := by
  have served := Served.setProgress state connection progress
  refine inOrder.served_step served ?_ inOrder.below (served.least inOrder.least) ?_
    inOrder.sorted inOrder.bounded
  · rw [served.owners]
    exact inOrder.served
  · exact inOrder.indexer.transfer rfl rfl (served.owners ▸ List.prefix_refl _) (le_refl _)
      fun _ _ => served.least

theorem InOrder.first (inOrder : InOrder state) {owner : Fin size × Nat}
    (found : state.owners[state.served]? = some owner) :
    state.Holds owner.1 owner.2 ∧ state.Least owner.2 ∧ owner.2 ≤ state.lastFetchedDocid := by
  have member : owner ∈ state.unserved := by
    obtain ⟨inside, value⟩ := List.getElem?_eq_some_iff.mp found
    rw [State.unserved, List.drop_eq_getElem_cons inside, value]
    exact List.mem_cons_self
  obtain ⟨holding, least⟩ := inOrder.unserved owner member
  have busy : state.docid owner.1 ≠ noDocument := holding.published ▸ holding.isDocument
  exact ⟨holding, least, holding.published ▸ inOrder.fetched owner.1 busy⟩

theorem InOrder.accept (inOrder : InOrder state) (accepting : state.indexer = .accepting)
    (waits : state.served < state.connections.length) :
    InOrder { state with indexer := .receiving } := by
  have bounded := inOrder.bounded
  rw [State.newest, accepting] at bounded
  exact inOrder.served_step ⟨rfl, rfl, rfl, rfl, le_refl _⟩ inOrder.served inOrder.below
    inOrder.least (by simpa [IndexerHolds, State.owners] using waits) inOrder.sorted bounded

section Index

variable (indexWords : List UInt8 → List Word)

theorem InOrder.index (inOrder : InOrder state) (receiving : state.indexer = .receiving)
    {connection : Connection size} (found : state.connections[state.served]? = some connection)
    (ret : Int) :
    InOrder (state.index indexWords connection ret) := by
  have owner : state.owners[state.served]? = some (connection.slot, connection.docid) := by
    rw [State.owners, List.getElem?_map, found]
    rfl
  obtain ⟨holding, least, fetched⟩ := inOrder.first owner
  have published : state.docid connection.slot = connection.docid := holding.published
  have above : state.lastIndexedDocid ≤ connection.docid := by
    rw [← published]
    exact inOrder.least connection.slot (published.symm ▸ holding.isDocument)
  have bounded := inOrder.bounded
  rw [State.newest, receiving] at bounded
  have waits : state.served < state.owners.length :=
    (List.getElem?_eq_some_iff.mp owner).1
  rw [State.index]
  split
  case isTrue =>
    exact inOrder.served_step ⟨rfl, rfl, rfl, rfl, le_refl _⟩ inOrder.served fetched least
      waits inOrder.sorted fun document member => le_trans (bounded document member) above
  split
  case isFalse.isTrue =>
    exact inOrder.served_step ⟨rfl, rfl, rfl, rfl, le_refl _⟩ inOrder.served inOrder.below
      inOrder.least waits inOrder.sorted bounded
  split
  case isFalse.isFalse.isTrue =>
    exact inOrder.served_step ⟨rfl, rfl, rfl, rfl, le_refl _⟩ inOrder.served inOrder.below
      inOrder.least waits inOrder.sorted bounded
  case isFalse.isFalse.isFalse newer =>
    refine inOrder.served_step ⟨rfl, rfl, rfl, rfl, le_refl _⟩ inOrder.served inOrder.below
      inOrder.least ⟨⟨connection.slot, owner⟩, not_le.mp newer⟩ ?_ ?_
    · rw [List.map_append, List.pairwise_append]
      refine ⟨inOrder.sorted, List.pairwise_singleton _ _, ?_⟩
      intro docid member new isNew
      obtain ⟨document, isDocument, rfl⟩ := List.mem_map.mp member
      rw [List.mem_singleton.mp isNew]
      exact lt_of_le_of_lt (bounded document isDocument) (not_le.mp newer)
    · intro document member
      rcases List.mem_append.mp member with before | new
      · exact le_trans (bounded document before) above
      · rw [List.mem_singleton.mp new]
        exact le_refl _

end Index

theorem Served.reply (state : State size Word) (ret : Int) (indexer : IndexerPhase) :
    Served state (state.reply ret indexer) where
  slots := rfl
  lastFetched := rfl
  owners := by
    rw [State.owners, State.reply]
    exact map_modify_of_eq (by intro old; rfl) _ _
  answers := by
    rw [State.answers, State.answers, ← List.map_drop, ← List.map_drop, State.reply]
    dsimp only
    rw [List.drop_modify_of_lt _ _ _ _ (Nat.lt_succ_self _)]
  later := Nat.le_succ _

theorem InOrder.reply (inOrder : InOrder state) {ret : Int} {indexed : Option Nat}
    (replying : state.indexer = .replying ret indexed) :
    InOrder (state.reply ret (afterReply indexed)) := by
  have served := Served.reply state ret (afterReply indexed)
  have holds := inOrder.indexer
  have bounded := inOrder.bounded
  rw [State.newest, replying] at bounded
  rw [replying] at holds
  have inside : (state.reply ret (afterReply indexed)).served ≤
      (state.reply ret (afterReply indexed)).owners.length := by
    rw [served.owners]
    cases indexed with
    | none => exact holds
    | some docid =>
      obtain ⟨⟨slot, made⟩, -⟩ := holds
      exact (List.getElem?_eq_some_iff.mp made).1
  refine inOrder.served_step served inside inOrder.below (served.least inOrder.least) ?_
    inOrder.sorted ?_
  · cases indexed with
    | none => trivial
    | some docid =>
      obtain ⟨⟨slot, made⟩, above⟩ := holds
      obtain ⟨-, least, fetched⟩ := inOrder.first made
      exact ⟨above, fetched, served.least least⟩
  · cases indexed with
    | none => exact bounded
    | some docid => exact bounded

theorem InOrder.update (inOrder : InOrder state) {docid : Nat}
    (updating : state.indexer = .updating docid) :
    InOrder { state with lastIndexedDocid := docid, indexer := .accepting } := by
  have bounded := inOrder.bounded
  rw [State.newest, updating] at bounded
  have holds := inOrder.indexer
  rw [updating] at holds
  exact inOrder.served_step ⟨rfl, rfl, rfl, rfl, le_refl _⟩ inOrder.served holds.2.1 holds.2.2
    trivial inOrder.sorted bounded

theorem State.Holds.least {docid : Nat} (holding : state.Holds slot docid)
    (minimum : getMinimumDocidSlot (fun other => (state.slots other).desc) = some slot) :
    state.Least docid := by
  intro other busy
  have least := getMinimumDocidSlot_least minimum other busy
  rwa [show getDocid (state.slots slot).desc = docid from holding.published] at least

theorem InOrder.clear_of_answer (inOrder : InOrder state) {docid connection : Nat}
    (latest : state.Latest slot docid connection) {ret : Int}
    (answer : state.connections[connection]?.bind Connection.ret = some ret) :
    state.Clear slot := by
  have isAnswer : state.answers[connection]? = some (some ret) := by
    rw [State.answers, List.getElem?_map]
    cases found : state.connections[connection]? with
    | none => simp [found] at answer
    | some made =>
      rw [found] at answer
      exact congrArg some answer
  have isServed : connection < state.served := by
    by_contra waits
    have member : some ret ∈ state.answers.drop state.served := by
      apply List.mem_of_getElem? (i := connection - state.served)
      rw [List.getElem?_drop, Nat.add_sub_cancel' (not_lt.mp waits)]
      exact isAnswer
    exact absurd (inOrder.unanswered _ member) (by simp)
  intro owner member
  exact latest.last owner ((List.drop_sublist_drop_left _ isServed).subset member)

theorem InOrder.slot_step (inOrder : InOrder state) {label : Label size}
    (stepped : slotStep state slot (state.slots slot).phase label = some next) :
    InOrder next := by
  have holds := inOrder.phases slot
  have initialized : ¬ (state.slots slot).phase.Resting → (state.slots slot).notInit = false :=
    inOrder.initialized
  have move : ∀ {phase : Phase}, (state.slots slot).notInit = false →
      PhaseHolds state slot phase → InOrder (state.setPhase slot phase) :=
    fun isInit holdsPhase => inOrder.setPhase (by simp [isInit]) holdsPhase
  generalize atPhase : (state.slots slot).phase = phase at stepped holds initialized
  revert stepped
  fun_cases slotStep state slot phase label <;> rintro ⟨⟩
  case case1 => exact inOrder.startSlot slot
  case case2 lastRegistered =>
    exact inOrder.getDocidToIndex holds (initialized (by simp [Phase.Resting]))
      lastRegistered.toNat_lt
  case case5 docid _ isDocument =>
    exact move (initialized (by simp [Phase.Resting])) ⟨⟨holds, isDocument⟩, by simp⟩
  case case6 docid _ rmasData =>
    exact move (initialized (by simp [Phase.Resting])) ⟨holds.1, fun _ => holds.2⟩
  case case7 docid rmasData _ minimum =>
    exact move (initialized (by simp [Phase.Resting]))
      ⟨holds.1, holds.2, holds.1.least minimum⟩
  case case8 => exact inOrder
  case case9 docid _ =>
    exact move (initialized (by simp [Phase.Resting])) ⟨holds.1, holds.2.1 (by simp)⟩
  case case10 docid rmasData _ _ =>
    exact move (initialized (by simp [Phase.Resting])) ⟨holds.1, holds.2.2⟩
  case case11 => exact inOrder.connect atPhase
  case case12 docid rmasData connection _ =>
    have moved : InOrder (state.setPhase slot (afterHeader docid connection rmasData)) := by
      refine move (initialized (by simp [Phase.Resting])) ?_
      cases rmasData with
      | none => exact holds
      | some data => exact holds
    exact moved.setProgress _ _
  case case13 docid rmasData connection _ =>
    have moved : InOrder (state.setPhase slot (.awaiting docid (some rmasData) connection)) :=
      move (initialized (by simp [Phase.Resting])) holds
    exact moved.setProgress _ _
  case case14 | case15 | case16 =>
    exact move (initialized (by simp [Phase.Resting])) ⟨holds.1, holds.2.1⟩
  case case18 docid rmasData connection _ ret answer =>
    exact move (initialized (by simp [Phase.Resting]))
      ⟨holds.1, inOrder.clear_of_answer holds.2.2 answer⟩
  case case19 docid ret _ =>
    have isInit := initialized (by simp [Phase.Resting])
    rw [isInit]
    exact inOrder.idle holds.2
  case case20 => exact inOrder.setPhase (fun _ => Or.inr rfl) trivial
  case case22 => exact inOrder.setPhase (fun _ => Or.inl rfl) trivial

theorem InOrder.indexer_step (indexWords : List UInt8 → List Word) (inOrder : InOrder state)
    {label : Label size} (stepped : indexerStep indexWords state state.indexer label = some next) :
    InOrder next := by
  generalize atPhase : state.indexer = phase at stepped
  revert stepped
  fun_cases indexerStep indexWords state phase label <;> rintro ⟨⟩
  case case1 waits => exact inOrder.accept atPhase waits
  case case5 fails connection found ret _ => exact inOrder.index indexWords atPhase found ret
  case case6 => exact inOrder.reply atPhase
  case case7 => exact inOrder.update atPhase

section Order

variable (indexWords : List UInt8 → List Word)

theorem InOrder.step (inOrder : InOrder state) {label : Label size}
    (stepped : Rmac.step indexWords state label = some next) :
    InOrder next := by
  rw [Rmac.step] at stepped
  cases isSlot : label.slot? with
  | none =>
    rw [isSlot] at stepped
    exact inOrder.indexer_step indexWords stepped
  | some slot =>
    rw [isSlot] at stepped
    exact inOrder.slot_step stepped

theorem InOrder.of_reach {allowed : State size Word → Label size → Prop} {lastIndexed : UInt32}
    (reached : Reach (Rmac.step indexWords) allowed (startState size Word lastIndexed) state) :
    InOrder state :=
  reached.invariant InOrder (InOrder.start size Word lastIndexed)
    fun _ _ _ inOrder _ stepped => inOrder.step indexWords stepped

end Order

end Wisebot.Rmac
