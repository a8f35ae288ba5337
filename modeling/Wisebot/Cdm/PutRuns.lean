import Wisebot.Cdm.LiveDocuments

namespace Wisebot.Cdm

open Lib

/-! Runs of puts on one store, each put with what fails in it. -/

variable {Oid : Type} [DecidableEq Oid]

structure Store (State Oid : Type) where
  cdm : State
  log : List (Handed Oid)

def logPut {State : Type} (log : List (Handed Oid)) (oid : Oid) (document : List UInt8)
    (outcome : PutOutcome State) : List (Handed Oid) :=
  match outcome.newdocid with
  | none => log
  | some docid =>
    ⟨oid, docid, if outcome.answer.stored then some document else none⟩ :: log

theorem stored_storedAnswer (olddocid : Option Nat) :
    (storedAnswer olddocid).stored = true := by
  cases olddocid <;> rfl

/-! ### `mod_cdm2` -/

section Cdm2Runs

def Put2.document (call : Put2 Oid) : List UInt8 := (call.parts.map writeRecord).getD []

def step2 (cdmFileSize : Nat) (store : Store (Cdm2 Oid) Oid) (call : Put2 Oid) :
    Option (Store (Cdm2 Oid) Oid) :=
  (putXmldoc2 cdmFileSize store.cdm call).map fun outcome =>
    ⟨outcome.state, logPut store.log call.oid call.document outcome⟩

def Put2.EndsEarly (cdmFileSize : Nat) (cdm : Cdm2 Oid) (call : Put2 Oid) : Prop :=
  call.parts = none ∨ (cdm.locked = false ∧ call.lockFails = true) ∨
    (call.openFails = true ∧ (nextPlace cdmFileSize cdm).1 ≠ cdm.dbNo)

/-- The docid is given and, if the object has a stored document, the new one is
written; and there is a place for the descriptor of the data file. -/
def Careful2 (cdmFileSize : Nat) (store : Store (Cdm2 Oid) Oid) (call : Put2 Oid) : Prop :=
  (nextPlace cdmFileSize store.cdm).1 < maxCdmFileCount ∧
    (call.EndsEarly cdmFileSize store.cdm ∨
      call.docidFails = false ∧ ((lastStored store.log call.oid).isSome = true →
        call.indexFails = false ∧ call.dataFails = none))

def start2 : Store (Cdm2 Oid) Oid := ⟨emptyCdm2, []⟩

/-- Where the stored documents are: below the end of the last file. -/
def Placed (cdm : Cdm2 Oid) (docid : Nat) (document : List UInt8) : Prop :=
  ∃ dbNo offset, cdm.index docid = ⟨docid, dbNo, offset, document.length⟩ ∧
    (cdm.files dbNo).read offset document.length = document ∧
    (dbNo < cdm.dbNo ∨ dbNo = cdm.dbNo ∧ offset + document.length ≤ cdm.offset)

structure Sound2 (store : Store (Cdm2 Oid) Oid) : Prop where
  unlocked : store.cdm.locked = false
  recorded : Recorded store.cdm.did store.cdm.deleted store.log
  settled : Settled store.log
  placed : ∀ handed ∈ store.log, ∀ document, handed.document = some document →
    Placed store.cdm handed.docid document

omit [DecidableEq Oid] in
theorem Placed.stored {cdm : Cdm2 Oid} {docid : Nat} {document : List UInt8}
    (placed : Placed cdm docid document) (positive : 0 < docid) :
    stored2 cdm docid = some document := by
  obtain ⟨dbNo, offset, element, content, -⟩ := placed
  rw [stored2, element, if_pos ⟨rfl, by omega⟩]
  exact congrArg some content

omit [DecidableEq Oid] in
theorem nextPlace_spec (cdmFileSize : Nat) (cdm : Cdm2 Oid) :
    (cdm.dbNo < (nextPlace cdmFileSize cdm).1) ∨
      ((nextPlace cdmFileSize cdm).1 = cdm.dbNo ∧
        (nextPlace cdmFileSize cdm).2 = cdm.offset) := by
  rw [nextPlace]
  split
  · exact Or.inl (Nat.lt_succ_self _)
  · exact Or.inr ⟨rfl, rfl⟩

omit [DecidableEq Oid] in
theorem Placed.written {cdm : Cdm2 Oid} {docid : Nat} {document : List UInt8}
    (placed : Placed cdm docid document) {dbNo offset : Nat}
    (behind : cdm.dbNo < dbNo ∨ (dbNo = cdm.dbNo ∧ offset = cdm.offset)) (bytes : List UInt8)
    {next : Cdm2 Oid} (index : next.index docid = cdm.index docid)
    (files : next.files = (writeData cdm dbNo offset bytes).files)
    (moved : next.dbNo = cdm.dbNo ∧ next.offset = cdm.offset ∨
      next.dbNo = dbNo ∧ offset ≤ next.offset) :
    Placed next docid document := by
  obtain ⟨oldDbNo, oldOffset, element, content, below⟩ := placed
  refine ⟨oldDbNo, oldOffset, index.trans element, ?_, by omega⟩
  rw [files, writeData]
  by_cases same : oldDbNo = dbNo
  · subst same
    dsimp only
    rw [Function.update_self, Mem.read_write_disjoint (by omega)]
    exact content
  · dsimp only
    rw [Function.update_of_ne same]
    exact content

omit [DecidableEq Oid] in
theorem placed_new (cdm : Cdm2 Oid) {docid dbNo offset : Nat} {parts : Parts}
    {next : Cdm2 Oid} (index : next.index docid = ⟨docid, dbNo, offset, recordLength parts⟩)
    (files : next.files = (writeData cdm dbNo offset (writeRecord parts)).files)
    (moved : next.dbNo = dbNo ∧ next.offset = offset + recordLength parts) :
    Placed next docid (writeRecord parts) := by
  refine ⟨dbNo, offset, by rw [index, length_writeRecord], ?_, ?_⟩
  · rw [files, writeData]
    dsimp only
    rw [Function.update_self]
    exact Mem.read_write _ _ _
  · rw [length_writeRecord]
    omega

theorem Sound2.start : Sound2 (start2 : Store (Cdm2 Oid) Oid) where
  unlocked := rfl
  recorded := Recorded.empty
  settled := Settled.empty
  placed := by simp [start2]

theorem Sound2.index_other {store : Store (Cdm2 Oid) Oid} (sound : Sound2 store)
    {handed : Handed Oid} (member : handed ∈ store.log) (element : IndexFileElement) :
    Function.update store.cdm.index (store.cdm.did.lastDid + 1) element handed.docid =
      store.cdm.index handed.docid :=
  Function.update_of_ne (by have range := sound.recorded.range handed member; omega) _ _

theorem Sound2.putLocked {store : Store (Cdm2 Oid) Oid} (sound : Sound2 store)
    {call : Put2 Oid} {parts : Parts} (isParts : call.parts = some parts) {dbNo offset : Nat}
    (behind : store.cdm.dbNo < dbNo ∨ (dbNo = store.cdm.dbNo ∧ offset = store.cdm.offset))
    (given : call.docidFails = false)
    (careful : (lastStored store.log call.oid).isSome = true →
      call.indexFails = false ∧ call.dataFails = none) :
    Sound2 ⟨(putLocked { store.cdm with locked := true } call parts dbNo offset).state,
      logPut store.log call.oid call.document
        (Cdm.putLocked { store.cdm with locked := true } call parts dbNo offset)⟩ := by
  have isDocument : call.document = writeRecord parts := by
    rw [Put2.document, isParts]
    rfl
  have registered := sound.recorded.register call.oid
  cases indexFails : call.indexFails with
  | true =>
    have notStored : lastStored store.log call.oid = none := by
      rw [← Option.not_isSome_iff_eq_none]
      intro isStored
      rw [(careful isStored).1] at indexFails
      cases indexFails
    simp only [Cdm.putLocked, given, indexFails, Bool.false_eq_true, if_false, if_true, logPut,
      PutAnswer.stored]
    refine ⟨rfl, registered none, sound.settled.register _ _ (by simp [notStored]), ?_⟩
    intro handed member document isStored
    rcases List.mem_cons.mp member with equal | older
    · subst equal
      cases isStored
    · exact sound.placed handed older document isStored
  | false =>
    cases dataFails : call.dataFails with
    | some count =>
      have notStored : lastStored store.log call.oid = none := by
        rw [← Option.not_isSome_iff_eq_none]
        intro isStored
        rw [(careful isStored).2] at dataFails
        cases dataFails
      simp only [Cdm.putLocked, given, indexFails, dataFails, Bool.false_eq_true, if_false,
        logPut, PutAnswer.stored]
      refine ⟨rfl, registered none, sound.settled.register _ _ (by simp [notStored]), ?_⟩
      intro handed member document isStored
      rcases List.mem_cons.mp member with equal | older
      · subst equal
        cases isStored
      · exact (sound.placed handed older document isStored).written behind
          ((writeRecord parts).take count) (sound.index_other older _) rfl
          (Or.inl ⟨rfl, rfl⟩)
    | none =>
      simp only [Cdm.putLocked, given, indexFails, dataFails, Bool.false_eq_true, if_false,
        logPut, stored_storedAnswer, if_true, isDocument]
      refine ⟨rfl, registered _, sound.settled.register _ _ (by simp), ?_⟩
      intro handed member document isStored
      rcases List.mem_cons.mp member with equal | older
      · subst equal
        obtain rfl := Option.some.inj isStored
        exact placed_new store.cdm (Function.update_self _ _ _) rfl ⟨rfl, rfl⟩
      · exact (sound.placed handed older document isStored).written behind (writeRecord parts)
          (sound.index_other older _) rfl (Or.inr ⟨rfl, Nat.le_add_right _ _⟩)

theorem Sound2.step {cdmFileSize : Nat} {store next : Store (Cdm2 Oid) Oid} {call : Put2 Oid}
    (sound : Sound2 store) (careful : Careful2 cdmFileSize store call)
    (stepped : step2 cdmFileSize store call = some next) : Sound2 next := by
  obtain ⟨inArray, ends⟩ := careful
  rw [step2, Option.map_eq_some_iff] at stepped
  obtain ⟨outcome, puts, rfl⟩ := stepped
  rw [putXmldoc2] at puts
  cases isParts : call.parts with
  | none =>
    rw [isParts] at puts
    obtain rfl := Option.some.inj puts
    exact sound
  | some parts =>
    rw [isParts] at puts
    dsimp only at puts
    split at puts
    next =>
      obtain rfl := Option.some.inj puts
      exact sound
    next gotLock =>
      rw [if_neg (Nat.not_le.mpr inArray)] at puts
      split at puts
      next =>
        obtain rfl := Option.some.inj puts
        exact ⟨rfl, sound.recorded, sound.settled, sound.placed⟩
      next opened =>
        obtain rfl := Option.some.inj puts
        rcases ends with early | ⟨given, keeps⟩
        · rcases early with none_parsed | noLock | notOpened
          · rw [isParts] at none_parsed
            cases none_parsed
          · exact absurd noLock gotLock
          · exact absurd notOpened opened
        · exact sound.putLocked isParts (nextPlace_spec cdmFileSize store.cdm) given keeps

theorem Sound2.oneLive {store : Store (Cdm2 Oid) Oid} (sound : Sound2 store) :
    OneLive (stored2 store.cdm) store.cdm.deleted store.log :=
  sound.recorded.oneLive sound.settled fun handed member document isStored =>
    (sound.placed handed member document isStored).stored
      (sound.recorded.range handed member).1

end Cdm2Runs

/-! ### `mod_cdm3` -/

section Cdm3Runs

def step3 (store : Store (Cdm3 Oid) Oid) (call : Put3 Oid) : Option (Store (Cdm3 Oid) Oid) :=
  (putXmldoc3 store.cdm call).map fun outcome =>
    ⟨outcome.state, logPut store.log call.oid call.xmldoc outcome⟩

/-- The docid is given and, if the object has a stored document, the new one is appended. -/
def Careful3 (store : Store (Cdm3 Oid) Oid) (call : Put3 Oid) : Prop :=
  call.wellFormed = false ∨ call.lockFails = true ∨
    (call.docidFails = false ∧
      ((lastStored store.log call.oid).isSome = true → call.appendFails = none))

def start3 : Store (Cdm3 Oid) Oid := ⟨emptyCdm3, []⟩

structure Sound3 (store : Store (Cdm3 Oid) Oid) : Prop where
  unlocked : store.cdm.locked = false
  recorded : Recorded store.cdm.did store.cdm.deleted store.log
  settled : Settled store.log
  kept : ∀ handed ∈ store.log, ∀ document, handed.document = some document →
    store.cdm.ifs handed.docid = some document

theorem Sound3.start : Sound3 (start3 : Store (Cdm3 Oid) Oid) where
  unlocked := rfl
  recorded := Recorded.empty
  settled := Settled.empty
  kept := by simp [start3]

theorem Sound3.file_other {store : Store (Cdm3 Oid) Oid} (sound : Sound3 store)
    {handed : Handed Oid} (member : handed ∈ store.log) (content : Option (List UInt8)) :
    Function.update store.cdm.ifs (store.cdm.did.lastDid + 1) content handed.docid =
      store.cdm.ifs handed.docid :=
  Function.update_of_ne (by have range := sound.recorded.range handed member; omega) _ _

theorem Sound3.step {store next : Store (Cdm3 Oid) Oid} {call : Put3 Oid}
    (sound : Sound3 store) (careful : Careful3 store call)
    (stepped : step3 store call = some next) : Sound3 next := by
  rw [step3, Option.map_eq_some_iff] at stepped
  obtain ⟨outcome, puts, rfl⟩ := stepped
  rw [putXmldoc3] at puts
  split at puts
  next =>
    obtain rfl := Option.some.inj puts
    exact sound
  next parsed =>
    split at puts
    next =>
      obtain rfl := Option.some.inj puts
      exact sound
    next gotLock =>
      obtain ⟨given, keeps⟩ :=
        (careful.resolve_left parsed).resolve_left gotLock
      rw [if_neg (by rw [sound.unlocked]; exact Bool.false_ne_true),
        if_neg (by rw [given]; exact Bool.false_ne_true)] at puts
      have registered := sound.recorded.register call.oid
      cases appendFails : call.appendFails with
      | some left =>
        have notStored : lastStored store.log call.oid = none := by
          rw [← Option.not_isSome_iff_eq_none]
          intro isStored
          rw [keeps isStored] at appendFails
          cases appendFails
        simp only [appendFails] at puts
        obtain rfl := Option.some.inj puts
        simp only [logPut, PutAnswer.stored, Bool.false_eq_true, if_false]
        refine ⟨sound.unlocked, registered none,
          sound.settled.register _ _ (by simp [notStored]), ?_⟩
        intro handed member document isStored
        rcases List.mem_cons.mp member with equal | older
        · subst equal
          cases isStored
        · exact (sound.file_other older _).trans (sound.kept handed older document isStored)
      | none =>
        simp only [appendFails] at puts
        obtain rfl := Option.some.inj puts
        simp only [logPut, stored_storedAnswer, if_true]
        refine ⟨sound.unlocked, registered _, sound.settled.register _ _ (by simp), ?_⟩
        intro handed member document isStored
        rcases List.mem_cons.mp member with equal | older
        · subst equal
          obtain rfl := Option.some.inj isStored
          exact Function.update_self _ _ _
        · exact (sound.file_other older _).trans (sound.kept handed older document isStored)

theorem Sound3.oneLive {store : Store (Cdm3 Oid) Oid} (sound : Sound3 store) :
    OneLive store.cdm.ifs store.cdm.deleted store.log :=
  sound.recorded.oneLive sound.settled sound.kept

end Cdm3Runs

/-- In a run of careful puts each object has one live document after every call,
the lock is free and the next careful put returns. -/
theorem careful_puts_oneLive (cdmFileSize : Nat)
    {store2 : Store (Cdm2 Oid) Oid} {store3 : Store (Cdm3 Oid) Oid}
    (reached2 : Reach (step2 cdmFileSize) (Careful2 cdmFileSize) start2 store2)
    (reached3 : Reach step3 Careful3 start3 store3) :
    (OneLive (stored2 store2.cdm) store2.cdm.deleted store2.log ∧ store2.cdm.locked = false ∧
      ∀ call, Careful2 cdmFileSize store2 call →
        (step2 cdmFileSize store2 call).isSome = true) ∧
    (OneLive store3.cdm.ifs store3.cdm.deleted store3.log ∧ store3.cdm.locked = false ∧
      ∀ call, (step3 store3 call).isSome = true) := by
  have sound2 : Sound2 store2 := reached2.invariant Sound2 Sound2.start
    fun _ _ _ sound careful stepped => sound.step careful stepped
  have sound3 : Sound3 store3 := reached3.invariant Sound3 Sound3.start
    fun _ _ _ sound careful stepped => sound.step careful stepped
  refine ⟨⟨sound2.oneLive, sound2.unlocked, ?_⟩, sound3.oneLive, sound3.unlocked, ?_⟩
  · rintro call ⟨inArray, -⟩
    rw [step2, Option.isSome_map, putXmldoc2]
    cases call.parts with
    | none => rfl
    | some parts =>
      dsimp only
      rw [if_neg (Nat.not_le.mpr inArray)]
      split
      · rfl
      · split <;> rfl
  · intro call
    rw [step3, Option.isSome_map, putXmldoc3, sound3.unlocked]
    repeat' split
    all_goals simp_all

/-- A put of `mod_cdm2` in which nothing fails. -/
def plainPut2 (oid : Nat) : Put2 Nat where
  oid := oid
  parts := some ⟨[], [], []⟩
  lockFails := false
  openFails := false
  docidFails := false
  indexFails := false
  dataFails := none

/-- A put of `mod_cdm3` in which nothing fails. -/
def plainPut3 (oid : Nat) : Put3 Nat where
  oid := oid
  xmldoc := [60]
  wellFormed := true
  lockFails := false
  docidFails := false
  appendFails := none

/-- An object that is put twice. -/
theorem careful_puts_oneLive_twice :
    ∃ (store2 : Store (Cdm2 Nat) Nat) (store3 : Store (Cdm3 Nat) Nat), ((store2.log.map Handed.docid = [2, 1] ∧
        store3.log.map Handed.docid = [2, 1]) ∧
      (OneLive (stored2 store2.cdm) store2.cdm.deleted store2.log ∧ store2.cdm.locked = false ∧
        ∀ call, Careful2 1000 store2 call → (step2 1000 store2 call).isSome = true) ∧
      (OneLive store3.cdm.ifs store3.cdm.deleted store3.log ∧ store3.cdm.locked = false ∧
        ∀ call, (step3 store3 call).isSome = true)) := by
  have twice2 : ∃ store : Store (Cdm2 Nat) Nat,
      Reach (step2 1000) (Careful2 1000) start2 store ∧ store.log.map Handed.docid = [2, 1] :=
    ⟨_, (Reach.start.step (plainPut2 0)
        ⟨by decide, Or.inr ⟨rfl, fun _ => ⟨rfl, rfl⟩⟩⟩ rfl).step (plainPut2 0)
        ⟨by decide, Or.inr ⟨rfl, fun _ => ⟨rfl, rfl⟩⟩⟩ rfl, rfl⟩
  have twice3 : ∃ store : Store (Cdm3 Nat) Nat,
      Reach step3 Careful3 start3 store ∧ store.log.map Handed.docid = [2, 1] :=
    ⟨_, (Reach.start.step (plainPut3 0) (Or.inr (Or.inr ⟨rfl, fun _ => rfl⟩)) rfl).step
        (plainPut3 0) (Or.inr (Or.inr ⟨rfl, fun _ => rfl⟩)) rfl, rfl⟩
  obtain ⟨store2, reached2, docids2⟩ := twice2
  obtain ⟨store3, reached3, docids3⟩ := twice3
  exact ⟨store2, store3, ⟨docids2, docids3⟩, careful_puts_oneLive 1000 reached2 reached3⟩

/-- A put that fails while the data is written or appended has
deleted the document that was stored before; one that gets no docid keeps the lock. -/
theorem failing_puts_lose_document :
    (∃ store : Store (Cdm2 Nat) Nat, Reach (step2 1000) (fun _ _ => True) start2 store ∧
      ¬ OneLive (stored2 store.cdm) store.cdm.deleted store.log) ∧
    (∃ store : Store (Cdm2 Nat) Nat, Reach (step2 1000) (fun _ _ => True) start2 store ∧
      store.cdm.locked = true) ∧
    (∃ store : Store (Cdm3 Nat) Nat, Reach step3 (fun _ _ => True) start3 store ∧
      ¬ OneLive store.cdm.ifs store.cdm.deleted store.log) ∧
    (∃ store : Store (Cdm3 Nat) Nat, Reach step3 (fun _ _ => True) start3 store ∧
      store.cdm.locked = true) := by
  refine ⟨?_, ?_, ?_, ?_⟩
  · refine ⟨_, (Reach.start.step (plainPut2 0) trivial rfl).step
      { plainPut2 0 with dataFails := some 0 } trivial rfl, ?_⟩
    intro oneLive
    obtain ⟨-, live⟩ := oneLive 0 _ rfl
    exact absurd ((live 1).mpr rfl).2.2 (by decide)
  · exact ⟨_, Reach.start.step { plainPut2 0 with docidFails := true } trivial rfl, rfl⟩
  · refine ⟨_, (Reach.start.step (plainPut3 0) trivial rfl).step
      { plainPut3 0 with appendFails := some none } trivial rfl, ?_⟩
    intro oneLive
    obtain ⟨-, live⟩ := oneLive 0 _ rfl
    exact absurd ((live 1).mpr rfl).2.2 (by decide)
  · exact ⟨_, Reach.start.step { plainPut3 0 with docidFails := true } trivial rfl, rfl⟩

end Wisebot.Cdm
