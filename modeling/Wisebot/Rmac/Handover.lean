import Wisebot.Rmac.Postings

namespace Wisebot.Rmac

open Lib

/-! What becomes of a fetched docid: the slot publishes it until the indexer has
indexed the document or recorded it as an error document. -/

variable {size : Nat} {Word : Type} {origin docid : Nat} {state next : State size Word}
  {slot : Fin size}

def State.Recorded (state : State size Word) (docid : Nat) : Prop :=
  (docid ∈ state.indexed.map Prod.fst ∨ docid ∈ state.errorDocuments) ∧
    docid ≤ state.lastIndexedDocid

/-- Recorded, but for `last_indexed_docid`, which the indexer is about to set. -/
def State.Settled (state : State size Word) (docid : Nat) : Prop :=
  state.Recorded docid ∨
    (docid ∈ state.indexed.map Prod.fst ∧ state.indexer = .updating docid)

def Remembers (state : State size Word) : IndexerPhase → Prop
  | .accepting | .receiving => True
  | .replying ret none =>
    ret = fail ∨
      ∃ owner, state.owners[state.served]? = some owner ∧ state.Recorded owner.2
  | .replying _ (some docid) | .updating docid => docid ∈ state.indexed.map Prod.fst

structure HandedOver (origin : Nat) (state : State size Word) : Prop where
  beyond : origin ≤ state.lastIndexedDocid
  held : ∀ slot, state.docid slot ≠ noDocument → origin < state.docid slot
  lastIndexed : state.lastIndexedDocid = origin ∨ state.Recorded state.lastIndexedDocid
  documents : ∀ owner ∈ state.fetched, owner.2 ≠ noDocument
  fetched : ∀ owner ∈ state.fetched,
    state.docid owner.1 = owner.2 ∨ state.Recorded owner.2
  sent : ∀ slot docid ret, (state.slots slot).phase = .sent docid ret → state.Settled docid
  replies : ∀ reply ∈ state.replies, ∀ ret, reply.2 = some ret →
    ret = fail ∨ state.Settled reply.1
  indexer : Remembers state state.indexer

def State.answer (state : State size Word) (slot : Fin size) : Option Int :=
  match (state.slots slot).phase with
  | .awaiting _ _ connection => state.connections[connection]?.bind Connection.ret
  | _ => none

/-- The slot is about to send a successful analysis that has no index word. -/
def Phase.sendsNothing : Phase → Bool
  | .sending _ (some []) => true
  | _ => false

/-- A step that keeps clear of what loses a document: the docid that is fetched is
one, an analysis without an index word is not sent, the answer of the indexer is
not that it could not receive the message, and a slot becomes idle when
`last_indexed_docid` is set. -/
def Careful (state : State size Word) : Label size → Prop
  | .fetch _ _ => state.lastFetchedDocid + 1 ≠ noDocument
  | .send slot => (state.slots slot).phase.sendsNothing = false
  | .receive slot => state.answer slot ≠ some fail
  | .setNodoc slot => state.indexer ≠ .updating (state.docid slot)
  | _ => True

instance (state : State size Word) : (label : Label size) → Decidable (Careful state label)
  | .fetch _ _ => inferInstanceAs (Decidable (_ ≠ _))
  | .send _ => inferInstanceAs (Decidable (_ = _))
  | .receive _ => inferInstanceAs (Decidable (_ ≠ _))
  | .setNodoc _ => inferInstanceAs (Decidable (_ ≠ _))
  | .start _ | .leftover _ | .analyze _ _ | .checkMinimum _ | .connect _ | .sendHeader _
  | .sendData _ | .giveUp _ | .die _ | .respawn _ | .accept | .recv _ | .reply | .update =>
    inferInstanceAs (Decidable True)

theorem HandedOver.startState (size : Nat) (Word : Type) (lastIndexed : UInt32) :
    HandedOver lastIndexed.toNat (Rmac.startState size Word lastIndexed) where
  beyond := le_refl _
  held := fun _ busy => absurd rfl busy
  lastIndexed := Or.inl rfl
  documents := by simp [Rmac.startState]
  fetched := by simp [Rmac.startState]
  sent := by simp [Rmac.startState]
  replies := by simp [Rmac.startState, State.replies]
  indexer := trivial

theorem IndexKept.recorded (kept : IndexKept state next) (recorded : state.Recorded docid) :
    next.Recorded docid := by
  rw [State.Recorded, kept.indexed, kept.errors, kept.lastIndexed]
  exact recorded

theorem IndexKept.settled (kept : IndexKept state next) (settled : state.Settled docid) :
    next.Settled docid := by
  rcases settled with recorded | updating
  · exact Or.inl (kept.recorded recorded)
  · rw [State.Settled, kept.indexed, kept.indexer]
    exact Or.inr updating

theorem HandedOver.of_kept (handed : HandedOver origin state) (kept : IndexKept state next)
    (held : ∀ slot, next.docid slot ≠ noDocument → origin < next.docid slot)
    (documents : ∀ owner ∈ next.fetched, owner.2 ≠ noDocument)
    (fetched : ∀ owner ∈ next.fetched, next.docid owner.1 = owner.2 ∨ state.Recorded owner.2)
    (sent : ∀ slot docid ret, (next.slots slot).phase = .sent docid ret →
      state.Settled docid) : HandedOver origin next where
  beyond := kept.lastIndexed ▸ handed.beyond
  held := held
  lastIndexed := by
    rw [kept.lastIndexed]
    exact handed.lastIndexed.imp_right kept.recorded
  documents := documents
  fetched := fun owner member => (fetched owner member).imp_right kept.recorded
  sent := fun slot docid ret isSent => kept.settled (sent slot docid ret isSent)
  replies := by
    intro reply member ret answered
    rcases kept.replies reply member with before | new
    · exact (handed.replies reply before ret answered).imp_right kept.settled
    · exact absurd (new.symm.trans answered) (by simp)
  indexer := by
    have remembers := handed.indexer
    rw [kept.indexer]
    cases atPhase : state.indexer with
    | accepting => trivial
    | receiving => trivial
    | updating docid =>
      rw [atPhase] at remembers
      rw [Remembers, kept.indexed]
      exact remembers
    | replying ret indexed =>
      rw [atPhase] at remembers
      cases indexed with
      | some docid =>
        rw [Remembers, kept.indexed]
        exact remembers
      | none =>
        refine remembers.imp_right ?_
        rintro ⟨owner, found, recorded⟩
        obtain ⟨inside, value⟩ := List.getElem?_eq_some_iff.mp found
        refine ⟨owner, ?_, kept.recorded recorded⟩
        rw [kept.served, List.prefix_iff_getElem?.mp kept.owners _ inside, value]

theorem HandedOver.setPhase (handed : HandedOver origin state) {phase : Phase}
    (sent : ∀ docid ret, phase = .sent docid ret → state.Settled docid) :
    HandedOver origin (state.setPhase slot phase) := by
  refine handed.of_kept (IndexKept.setPhase state slot phase) ?_ handed.documents ?_ ?_
  · intro other
    rw [docid_setPhase]
    exact handed.held other
  · intro owner member
    rw [docid_setPhase]
    exact handed.fetched owner member
  · intro other docid ret isSent
    by_cases same : other = slot
    · subst same
      simp only [State.setPhase, State.setSlot, Function.update_self] at isSent
      exact sent docid ret isSent
    · simp only [State.setPhase, State.setSlot, Function.update_of_ne same] at isSent
      exact handed.sent other docid ret isSent

theorem HandedOver.of_slots (handed : HandedOver origin state) (kept : IndexKept state next)
    (slots : next.slots = state.slots) (fetched : next.fetched = state.fetched) :
    HandedOver origin next := by
  have docids : ∀ slot, next.docid slot = state.docid slot := by
    intro slot
    rw [State.docid, slots]
    rfl
  refine handed.of_kept kept ?_ (fetched ▸ handed.documents) ?_ ?_
  · intro slot
    rw [docids]
    exact handed.held slot
  · intro owner member
    rw [docids]
    exact handed.fetched owner (fetched ▸ member)
  · intro slot docid ret isSent
    rw [slots] at isSent
    exact handed.sent slot docid ret isSent

theorem HandedOver.publish (handed : HandedOver origin state) (value : Slot) (lastFetched : Nat)
    (recorded : ∀ docid, (slot, docid) ∈ state.fetched → state.Recorded docid)
    (held : getDocid value.desc ≠ noDocument → origin < getDocid value.desc)
    (notSent : ∀ docid ret, value.phase ≠ .sent docid ret) {fetched : List (Fin size × Nat)}
    (grown : ∀ owner ∈ fetched, owner ∈ state.fetched ∨
      owner = (slot, getDocid value.desc) ∧ getDocid value.desc ≠ noDocument) :
    HandedOver origin { state.setSlot slot value with
      lastFetchedDocid := lastFetched, fetched := fetched } := by
  refine handed.of_kept (IndexKept.setSlot state slot value lastFetched fetched) ?_ ?_ ?_ ?_
  · intro other busy
    change (state.setSlot slot value).docid other ≠ noDocument at busy
    change origin < (state.setSlot slot value).docid other
    by_cases same : other = slot
    · subst same
      rw [docid_setSlot_self] at busy ⊢
      exact held busy
    · rw [docid_setSlot_of_ne state value same] at busy ⊢
      exact handed.held other busy
  · intro owner member
    rcases grown owner member with before | ⟨rfl, isDocument⟩
    · exact handed.documents owner before
    · exact isDocument
  · intro owner member
    change (state.setSlot slot value).docid owner.1 = owner.2 ∨ _
    rcases grown owner member with before | ⟨rfl, -⟩
    · by_cases same : owner.1 = slot
      · exact Or.inr (recorded owner.2 (same ▸ before))
      · rw [docid_setSlot_of_ne state value same]
        exact handed.fetched owner before
    · exact Or.inl (docid_setSlot_self state slot value)
  · intro other docid ret isSent
    by_cases same : other = slot
    · subst same
      simp only [State.setSlot, Function.update_self] at isSent
      exact absurd isSent (notSent docid ret)
    · simp only [State.setSlot, Function.update_of_ne same] at isSent
      exact handed.sent other docid ret isSent

theorem HandedOver.recorded_of_idle (handed : HandedOver origin state)
    (idle : state.docid slot = noDocument) (member : (slot, docid) ∈ state.fetched) :
    state.Recorded docid := by
  rcases handed.fetched (slot, docid) member with holds | recorded
  · exact absurd (holds.symm.trans idle) (handed.documents (slot, docid) member)
  · exact recorded

theorem HandedOver.startSlot (handed : HandedOver origin state) (inOrder : InOrder state)
    (slot : Fin size) :
    HandedOver origin (state.startSlot slot) := by
  rw [State.startSlot]
  split
  case isTrue notInit =>
    have idle := (inOrder.notInit slot notInit).1
    exact handed.publish ⟨setDocid noDocument, false, .polling noDocument⟩ _
      (fun docid => handed.recorded_of_idle idle) (fun busy => absurd rfl busy) (by simp)
      fun _ => Or.inl
  case isFalse => exact handed.setPhase (by simp)

theorem HandedOver.getDocidToIndex (handed : HandedOver origin state) (inOrder : InOrder state)
    (idle : state.docid slot = noDocument) {lastRegistered : Nat} (small : lastRegistered < 2 ^ 32)
    (isDocument : state.lastFetchedDocid + 1 ≠ noDocument) :
    HandedOver origin (state.getDocidToIndex slot lastRegistered) := by
  rw [State.getDocidToIndex]
  split
  case isTrue more =>
    have published : getDocid (setDocid (state.lastFetchedDocid + 1)) =
        state.lastFetchedDocid + 1 := getDocid_setDocid (Nat.succ_pos _) (by omega)
    refine handed.publish
      ⟨setDocid (state.lastFetchedDocid + 1), (state.slots slot).notInit,
        if 2 ^ 31 ≤ state.lastFetchedDocid + 1 then .polling (state.lastFetchedDocid + 1)
        else .analyzing (state.lastFetchedDocid + 1)⟩ _
      (fun docid => handed.recorded_of_idle idle) (fun _ => ?_) ?_ fun owner member => ?_
    · have beyond := le_trans handed.beyond inOrder.below
      dsimp only
      omega
    · intro docid ret
      dsimp only
      split <;> simp
    · dsimp only
      rw [published]
      rcases List.mem_cons.mp member with new | before
      · exact Or.inr ⟨new, isDocument⟩
      · exact Or.inl before
  case isFalse => exact handed.setPhase (by simp)

theorem HandedOver.setNodoc (handed : HandedOver origin state) {ret : Int}
    (sent : (state.slots slot).phase = .sent docid ret) (holds : state.docid slot = docid)
    (updated : state.indexer ≠ .updating docid) (notInit : Bool) :
    HandedOver origin
      (state.setSlot slot ⟨setDocid noDocument, notInit, .polling noDocument⟩) := by
  refine handed.publish ⟨setDocid noDocument, notInit, .polling noDocument⟩ _ ?_
    (fun busy => absurd rfl busy) (by simp) fun _ => Or.inl
  intro other member
  rcases handed.fetched (slot, other) member with same | recorded
  · have isOther : docid = other := holds.symm.trans same
    subst isOther
    exact (handed.sent slot docid ret sent).resolve_right fun updating => updated updating.2
  · exact recorded

theorem HandedOver.settled_of_answer (handed : HandedOver origin state) {connection : Nat}
    (latest : state.Latest slot docid connection) {ret : Int}
    (answer : state.connections[connection]?.bind Connection.ret = some ret)
    (received : ret ≠ fail) : state.Settled docid := by
  obtain ⟨made, found, answered⟩ := Option.bind_eq_some_iff.mp answer
  have isMade := latest.made
  rw [State.owners, List.getElem?_map, found] at isMade
  have isDocid : made.docid = docid := congrArg Prod.snd (Option.some.inj isMade)
  have member : (made.docid, made.ret) ∈ state.replies :=
    List.mem_map_of_mem (List.mem_of_getElem? found)
  rw [← isDocid]
  exact (handed.replies _ member ret answered).resolve_left received

theorem HandedOver.slot_step (handed : HandedOver origin state) (inOrder : InOrder state)
    {label : Label size} (isSlot : label.slot? = some slot) (careful : Careful state label)
    (stepped : slotStep state slot (state.slots slot).phase label = some next) :
    HandedOver origin next := by
  have holds := inOrder.phases slot
  generalize atPhase : (state.slots slot).phase = phase at stepped holds
  revert stepped
  fun_cases slotStep state slot phase label <;> rintro ⟨⟩
  case case1 => exact handed.startSlot inOrder slot
  case case2 lastRegistered =>
    exact handed.getDocidToIndex inOrder holds lastRegistered.toNat_lt
      careful
  case case8 => exact handed
  case case9 docid _ =>
    obtain rfl := Option.some.inj isSlot
    rw [Careful, atPhase] at careful
    exact absurd careful (by simp [Phase.sendsNothing])
  case case11 docid rmasData _ =>
    have moved : HandedOver origin
        (state.setPhase slot (.connected docid rmasData state.connections.length)) :=
      handed.setPhase (by simp)
    exact moved.of_slots (IndexKept.append _ rfl) rfl rfl
  case case12 docid rmasData connection _ =>
    have moved : HandedOver origin
        (state.setPhase slot (afterHeader docid connection rmasData)) :=
      handed.setPhase (by cases rmasData <;> simp [afterHeader])
    exact moved.of_slots (IndexKept.setProgress _ _ _) rfl rfl
  case case13 docid rmasData connection _ =>
    have moved : HandedOver origin
        (state.setPhase slot (.awaiting docid (some rmasData) connection)) :=
      handed.setPhase (by simp)
    exact moved.of_slots (IndexKept.setProgress _ _ _) rfl rfl
  case case18 docid rmasData connection _ ret answer =>
    obtain rfl := Option.some.inj isSlot
    have received : ret ≠ fail := by
      rintro rfl
      rw [Careful, State.answer, atPhase] at careful
      exact careful answer
    refine handed.setPhase fun other answered isSent => ?_
    obtain ⟨rfl, -⟩ := Phase.sent.inj isSent
    exact handed.settled_of_answer holds.2.2 answer received
  case case19 docid ret _ =>
    obtain rfl := Option.some.inj isSlot
    rw [Careful, holds.1.published] at careful
    exact handed.setNodoc atPhase holds.1.published careful _
  all_goals exact handed.setPhase (by simp)

theorem HandedOver.of_grown (handed : HandedOver origin state) (slots : next.slots = state.slots)
    (fetched : next.fetched = state.fetched) (beyond : origin ≤ next.lastIndexedDocid)
    (recorded : ∀ docid, state.Recorded docid → next.Recorded docid)
    (settled : ∀ docid, state.Settled docid → next.Settled docid)
    (lastIndexed : next.lastIndexedDocid = origin ∨ next.Recorded next.lastIndexedDocid)
    (replies : ∀ reply ∈ next.replies, reply ∈ state.replies ∨
      ∀ ret, reply.2 = some ret → ret = fail ∨ next.Settled reply.1)
    (indexer : Remembers next next.indexer) : HandedOver origin next := by
  have docids : ∀ slot, next.docid slot = state.docid slot := by
    intro slot
    rw [State.docid, slots]
    rfl
  refine
    { beyond := beyond, lastIndexed := lastIndexed, indexer := indexer
      documents := fetched ▸ handed.documents
      held := ?_, fetched := ?_, sent := ?_, replies := ?_ }
  · intro slot
    rw [docids]
    exact handed.held slot
  · intro owner member
    rw [docids]
    exact (handed.fetched owner (fetched ▸ member)).imp_right (recorded owner.2)
  · intro slot docid ret isSent
    rw [slots] at isSent
    exact settled docid (handed.sent slot docid ret isSent)
  · intro reply member ret answered
    rcases replies reply member with before | new
    · exact (handed.replies reply before ret answered).imp_right (settled reply.1)
    · exact new ret answered

theorem State.Settled.recorded (settled : state.Settled docid)
    (notUpdating : ∀ other, state.indexer ≠ .updating other) :
    state.Recorded docid :=
  settled.resolve_right fun updating => notUpdating docid updating.2

section Index

variable (indexWords : List UInt8 → List Word)

theorem HandedOver.accept (handed : HandedOver origin state)
    (accepting : state.indexer = .accepting) :
    HandedOver origin { state with indexer := .receiving } :=
  handed.of_grown rfl rfl handed.beyond (fun _ => id)
    (fun _ settled => Or.inl (settled.recorded (by simp [accepting]))) handed.lastIndexed
    (fun _ => Or.inl) trivial

theorem HandedOver.index (handed : HandedOver origin state) (inOrder : InOrder state)
    (receiving : state.indexer = .receiving) {connection : Connection size}
    (found : state.connections[state.served]? = some connection) (ret : Int) :
    HandedOver origin (state.index indexWords connection ret) := by
  have notUpdating : ∀ other, state.indexer ≠ .updating other := by simp [receiving]
  have owner : state.owners[state.served]? = some (connection.slot, connection.docid) := by
    rw [State.owners, List.getElem?_map, found]
    rfl
  have newer := inOrder.first_docid found
  rw [State.index]
  split
  case isTrue =>
    have recorded : ∀ docid, state.Recorded docid →
        (docid ∈ state.indexed.map Prod.fst ∨
          docid ∈ connection.docid :: state.errorDocuments) ∧ docid ≤ connection.docid :=
      fun docid isRecorded => ⟨isRecorded.1.imp_right (List.mem_cons_of_mem _),
        le_trans isRecorded.2 newer⟩
    exact handed.of_grown rfl rfl (le_trans handed.beyond newer) recorded
      (fun docid settled => Or.inl (recorded docid (settled.recorded notUpdating)))
      (Or.inr ⟨Or.inr List.mem_cons_self, le_refl _⟩) (fun _ => Or.inl)
      (Or.inr ⟨_, owner, Or.inr List.mem_cons_self, le_refl _⟩)
  split
  case isFalse.isTrue failed =>
    exact handed.of_grown rfl rfl handed.beyond (fun _ => id)
      (fun docid settled => Or.inl (settled.recorded notUpdating)) handed.lastIndexed
      (fun _ => Or.inl) (Or.inl failed)
  split
  case isFalse.isFalse.isTrue older =>
    obtain ⟨holding, -, -⟩ := inOrder.first owner
    have published : state.docid connection.slot = connection.docid := holding.published
    have isLast : state.lastIndexedDocid = connection.docid := le_antisymm newer older
    have beyond : origin < connection.docid := by
      rw [← published]
      exact handed.held connection.slot (published.symm ▸ holding.isDocument)
    have recorded : state.Recorded connection.docid :=
      isLast ▸ handed.lastIndexed.resolve_left (by omega)
    exact handed.of_grown rfl rfl handed.beyond (fun _ => id)
      (fun docid settled => Or.inl (settled.recorded notUpdating)) handed.lastIndexed
      (fun _ => Or.inl) (Or.inr ⟨_, owner, recorded⟩)
  case isFalse.isFalse.isFalse =>
    have recorded : ∀ docid, state.Recorded docid →
        (docid ∈ (state.indexed ++ [(connection.docid,
            indexWords (connection.rmasData.take connection.rmasLength.toNat))]).map Prod.fst ∨
          docid ∈ state.errorDocuments) ∧ docid ≤ state.lastIndexedDocid := by
      intro docid isRecorded
      refine ⟨isRecorded.1.imp_left fun member => ?_, isRecorded.2⟩
      rw [List.map_append]
      exact List.mem_append_left _ member
    refine handed.of_grown rfl rfl handed.beyond recorded
      (fun docid settled => Or.inl (recorded docid (settled.recorded notUpdating)))
      (handed.lastIndexed.imp_right (recorded _)) (fun _ => Or.inl) ?_
    simp [Remembers]

end Index

theorem mem_replies_reply {ret : Int} {indexer : IndexerPhase} {reply : Nat × Option Int}
    (member : reply ∈ (state.reply ret indexer).replies) :
    reply ∈ state.replies ∨ reply.2 = some ret ∧
      ∃ slot, state.owners[state.served]? = some (slot, reply.1) := by
  obtain ⟨changed, isChanged, rfl⟩ := List.mem_map.mp member
  obtain ⟨index, found⟩ := List.mem_iff_getElem?.mp isChanged
  rw [State.reply, List.getElem?_modify] at found
  obtain ⟨made, isMade, rfl⟩ := Option.map_eq_some_iff.mp found
  by_cases here : state.served = index
  · subst here
    refine Or.inr ⟨by simp, made.slot, ?_⟩
    rw [State.owners, List.getElem?_map, isMade]
    simp
  · simp only [here, ↓reduceIte]
    exact Or.inl (List.mem_map_of_mem (List.mem_of_getElem? isMade))

theorem HandedOver.reply (handed : HandedOver origin state) (inOrder : InOrder state) {ret : Int}
    {indexed : Option Nat} (replying : state.indexer = .replying ret indexed) :
    HandedOver origin (state.reply ret (afterReply indexed)) := by
  have notUpdating : ∀ other, state.indexer ≠ .updating other := by simp [replying]
  have holds := inOrder.indexer
  have remembers := handed.indexer
  rw [replying] at holds remembers
  refine handed.of_grown rfl rfl handed.beyond (fun _ => id)
    (fun docid settled => Or.inl (settled.recorded notUpdating)) handed.lastIndexed
    (fun reply member => (mem_replies_reply member).imp_right ?_) ?_
  · rintro ⟨answered, slot, owner⟩ other isOther
    obtain rfl : ret = other := Option.some.inj (answered.symm.trans isOther)
    cases indexed with
    | none =>
      refine remembers.imp_right ?_
      rintro ⟨first, found, recorded⟩
      obtain rfl := Option.some.inj (found.symm.trans owner)
      exact Or.inl recorded
    | some docid =>
      obtain ⟨⟨first, found⟩, -⟩ := holds
      have isDocid : docid = reply.1 :=
        congrArg Prod.snd (Option.some.inj (found.symm.trans owner))
      exact Or.inr (Or.inr ⟨isDocid ▸ remembers, isDocid ▸ rfl⟩)
  · cases indexed with
    | none => trivial
    | some docid => exact remembers

theorem HandedOver.update (handed : HandedOver origin state) (inOrder : InOrder state)
    (updating : state.indexer = .updating docid) :
    HandedOver origin { state with lastIndexedDocid := docid, indexer := .accepting } := by
  have holds := inOrder.indexer
  have remembers := handed.indexer
  rw [updating] at holds remembers
  have grows : state.lastIndexedDocid ≤ docid := le_of_lt holds.1
  have recorded : ∀ other, state.Recorded other →
      (other ∈ state.indexed.map Prod.fst ∨ other ∈ state.errorDocuments) ∧ other ≤ docid :=
    fun other isRecorded => ⟨isRecorded.1, le_trans isRecorded.2 grows⟩
  refine handed.of_grown rfl rfl (le_trans handed.beyond grows) recorded (fun other settled => ?_)
    (Or.inr ⟨Or.inl remembers, le_refl _⟩) (fun _ => Or.inl) trivial
  rcases settled with isRecorded | ⟨isIndexed, same⟩
  · exact Or.inl (recorded other isRecorded)
  · rw [updating] at same
    obtain rfl := IndexerPhase.updating.inj same
    exact Or.inl ⟨Or.inl isIndexed, le_refl _⟩

section Runs

variable (indexWords : List UInt8 → List Word)

theorem HandedOver.step (handed : HandedOver origin state) (inOrder : InOrder state)
    {label : Label size} (careful : Careful state label)
    (stepped : Rmac.step indexWords state label = some next) : HandedOver origin next := by
  rw [Rmac.step] at stepped
  cases isSlot : label.slot? with
  | some slot =>
    rw [isSlot] at stepped
    exact handed.slot_step inOrder isSlot careful stepped
  | none =>
    rw [isSlot] at stepped
    dsimp only at stepped
    generalize atPhase : state.indexer = phase at stepped
    revert stepped
    fun_cases indexerStep indexWords state phase label <;> rintro ⟨⟩
    case case1 => exact handed.accept atPhase
    case case5 fails connection found ret _ =>
      exact handed.index indexWords inOrder atPhase found ret
    case case6 => exact handed.reply inOrder atPhase
    case case7 => exact handed.update inOrder atPhase

/-- In a run of careful steps, whenever the slot that fetched a docid does not
publish it any more, the document is indexed or an error document and
`last_indexed_docid` has reached it. -/
theorem careful_run_recorded {lastIndexed : UInt32} {state : State size Word}
    (reached : Reach (step indexWords) Careful (startState size Word lastIndexed) state) :
    ∀ slot docid, (slot, docid) ∈ state.fetched → state.docid slot ≠ docid →
      (docid ∈ state.indexed.map Prod.fst ∨ docid ∈ state.errorDocuments) ∧
        docid ≤ state.lastIndexedDocid := by
  have sound : HandedOver lastIndexed.toNat state ∧ InOrder state :=
    reached.invariant (fun state => HandedOver lastIndexed.toNat state ∧ InOrder state)
      ⟨HandedOver.startState size Word lastIndexed, InOrder.start size Word lastIndexed⟩
      fun _ _ _ kept careful stepped =>
        ⟨kept.1.step indexWords kept.2 careful stepped, kept.2.step indexWords stepped⟩
  intro slot docid member idle
  exact (sound.1.fetched (slot, docid) member).resolve_left idle

end Runs

/-- The document of one slot, whose analysis fails; it is sent twice. -/
def failedRun : List (Label 1) :=
  [.start 0, .fetch 0 1, .analyze 0 none, .checkMinimum 0, .send 0, .connect 0, .sendHeader 0,
    .giveUp 0, .connect 0, .sendHeader 0, .accept, .recv false, .reply, .accept, .recv false,
    .reply, .receive 0, .setNodoc 0]

theorem careful_run_recorded_failed :
    ∃ state, runSchedule (guardedStep (step id) Careful) (startState 1 UInt8 0) failedRun =
        some state ∧
      state.fetched = [(0, 1)] ∧ state.docid 0 = noDocument ∧
      ∀ slot docid, (slot, docid) ∈ state.fetched → state.docid slot ≠ docid →
        (docid ∈ state.indexed.map Prod.fst ∨ docid ∈ state.errorDocuments) ∧
          docid ≤ state.lastIndexedDocid := by
  have seen : (runSchedule (guardedStep (step id) Careful) (startState 1 UInt8 0)
      failedRun).map (fun state => (state.fetched, state.docid 0)) =
        some ([(0, 1)], noDocument) := by decide +kernel
  obtain ⟨state, ran, isSeen⟩ := Option.map_eq_some_iff.mp seen
  exact ⟨state, ran, congrArg Prod.fst isSeen, congrArg Prod.snd isSeen,
    careful_run_recorded id (Reach.of_guardedSchedule failedRun Reach.start ran)⟩

def emptyRun : List (Label 1) :=
  [.start 0, .fetch 0 1, .analyze 0 (some []), .checkMinimum 0, .send 0, .setNodoc 0]

theorem empty_analysis_loses_document :
    ¬ ∀ state, Reach (step id) (fun _ _ => True) (startState 1 UInt8 0) state →
      ∀ slot docid, (slot, docid) ∈ state.fetched → state.docid slot ≠ docid →
        (docid ∈ state.indexed.map Prod.fst ∨ docid ∈ state.errorDocuments) ∧
          docid ≤ state.lastIndexedDocid := by
  intro recorded
  have seen : (runSchedule (step id) (startState 1 UInt8 0) emptyRun).map
      (fun state => (state.fetched, state.docid 0, state.lastIndexedDocid)) =
        some ([(0, 1)], noDocument, 0) := by decide +kernel
  obtain ⟨state, ran, isSeen⟩ := Option.map_eq_some_iff.mp seen
  obtain ⟨isFetched, rest⟩ := Prod.mk.inj isSeen
  obtain ⟨isIdle, isLast⟩ := Prod.mk.inj rest
  have reached := Reach.of_runSchedule emptyRun Reach.start ran
  have reachedDocid := (recorded state reached 0 1 (by simp [isFetched])
    (by rw [isIdle]; decide)).2
  omega

end Wisebot.Rmac
