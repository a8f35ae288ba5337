import Mathlib.Data.List.FinRange
import Mathlib.Logic.Function.Basic
import Mathlib.Algebra.Ring.Nat
import Mathlib.Data.List.TakeWhile
import Wisebot.Lib.Transition

namespace Wisebot.Rmac

/-! What the slots publish: each writes the docid that it works on as a text into
its `desc`, and a slot whose docid is the least of all may send. -/

/-- The docid that is none. -/
def noDocument : Nat := 0xffffffff

/-- `atoi` of a text that begins with neither a blank nor a sign, read as a
`uint32_t`: the value as a 64 bit `long`, cut to 32 bits. -/
def atoi (text : List Char) : Nat :=
  min (Nat.ofDigitChars 10 (text.takeWhile Char.isDigit) 0) (2 ^ 63 - 1) % 2 ^ 32

def idleDesc : List Char := "idle".toList

def getDocid (desc : List Char) : Nat :=
  if desc = idleDesc then noDocument
  else if ':' ∉ desc then noDocument
  else
    let docid := atoi (desc.takeWhile fun char => char ≠ ':')
    if docid = 0 then noDocument else docid

/-- The text that `set_docid` writes; it is shorter than `desc` has room for. -/
def setDocid (docid : Nat) : List Char :=
  if docid = noDocument then idleDesc
  else Nat.toDigits 10 docid ++ ": processing docid".toList

@[simp] theorem getDocid_idleDesc : getDocid idleDesc = noDocument := by
  rw [getDocid, if_pos rfl]

theorem takeWhile_toDigits (docid : Nat) (keep : Char → Bool)
    (digits : ∀ char, char.isDigit = true → keep char = true) (stop : Char)
    (stops : keep stop = false) (rest : List Char) :
    (Nat.toDigits 10 docid ++ stop :: rest).takeWhile keep = Nat.toDigits 10 docid := by
  have kept : ∀ char ∈ Nat.toDigits 10 docid, keep char = true := fun char member =>
    digits char (Nat.isDigit_of_mem_toDigits (by decide) (by decide) member)
  rw [List.takeWhile_append_of_pos kept, List.takeWhile_cons_of_neg (by simp [stops]),
    List.append_nil]

theorem atoi_toDigits {docid : Nat} (small : docid < 2 ^ 32) :
    atoi (Nat.toDigits 10 docid) = docid := by
  have digits : (Nat.toDigits 10 docid).takeWhile Char.isDigit = Nat.toDigits 10 docid :=
    List.takeWhile_eq_self_iff.mpr fun char member =>
      Nat.isDigit_of_mem_toDigits (by decide) (by decide) member
  rw [atoi, digits, Nat.ofDigitChars_ten_toDigits]
  omega

theorem getDocid_setDocid {docid : Nat} (positive : 0 < docid) (small : docid < 2 ^ 32) :
    getDocid (setDocid docid) = docid := by
  by_cases none : docid = noDocument
  · rw [setDocid, if_pos none, getDocid_idleDesc, none]
  · have text : setDocid docid = Nat.toDigits 10 docid ++ ':' :: " processing docid".toList := by
      rw [setDocid, if_neg none]
      rfl
    have notIdle : setDocid docid ≠ idleDesc := by
      intro idle
      have colon : ':' ∈ idleDesc := idle ▸ text ▸ by simp
      exact absurd colon (by decide)
    have digits := takeWhile_toDigits docid (fun char => char ≠ ':')
      (fun char isDigit => by
        have differs : char ≠ ':' := by
          rintro rfl
          exact absurd isDigit (by decide)
        simpa using differs) ':' (by simp) " processing docid".toList
    rw [getDocid, if_neg notIdle, text, if_neg (by simp), digits, atoi_toDigits small]
    exact if_neg (by omega)

section Minimum

variable {size : Nat}

def minimumTurn (descs : Fin size → List Char) (least : Nat × Option (Fin size))
    (slot : Fin size) : Nat × Option (Fin size) :=
  let docid := getDocid (descs slot)
  if docid ≠ noDocument ∧ least.1 > docid then (docid, some slot) else least

def getMinimumDocidSlot (descs : Fin size → List Char) : Option (Fin size) :=
  ((List.finRange size).foldl (minimumTurn descs) (noDocument, none)).2

/-- What the loop knows: the docid of the slot it holds, which none of those seen
is below. -/
def LeastOf (descs : Fin size → List Char) (seen : List (Fin size))
    (least : Nat × Option (Fin size)) : Prop :=
  (∀ slot, least.2 = some slot → getDocid (descs slot) = least.1 ∧ least.1 ≠ noDocument) ∧
    ∀ slot ∈ seen, getDocid (descs slot) ≠ noDocument → least.1 ≤ getDocid (descs slot)

theorem LeastOf.turn {descs : Fin size → List Char} {seen : List (Fin size)}
    {least : Nat × Option (Fin size)} (isLeast : LeastOf descs seen least) (slot : Fin size) :
    LeastOf descs (seen ++ [slot]) (minimumTurn descs least slot) := by
  rw [minimumTurn]
  split
  case isTrue lower =>
    refine ⟨fun other isOther => ?_, fun other member busy => ?_⟩
    · cases isOther
      exact ⟨rfl, lower.1⟩
    · rcases List.mem_append.mp member with before | here
      · have above := isLeast.2 other before busy
        exact le_trans (le_of_lt lower.2) above
      · rw [List.mem_singleton.mp here]
  case isFalse notLower =>
    refine ⟨isLeast.1, fun other member busy => ?_⟩
    rcases List.mem_append.mp member with before | here
    · exact isLeast.2 other before busy
    · rw [List.mem_singleton.mp here] at busy ⊢
      exact not_lt.mp fun lower => notLower ⟨busy, lower⟩

theorem LeastOf.foldl {descs : Fin size → List Char} (slots : List (Fin size))
    {seen : List (Fin size)} {least : Nat × Option (Fin size)}
    (isLeast : LeastOf descs seen least) :
    LeastOf descs (seen ++ slots) (slots.foldl (minimumTurn descs) least) := by
  induction slots generalizing seen least with
  | nil => simpa using isLeast
  | cons slot rest induction =>
    have later := induction (isLeast.turn slot)
    rwa [List.append_assoc, List.singleton_append] at later

theorem getMinimumDocidSlot_least {descs : Fin size → List Char} {slot : Fin size}
    (found : getMinimumDocidSlot descs = some slot) :
    ∀ other, getDocid (descs other) ≠ noDocument →
      getDocid (descs slot) ≤ getDocid (descs other) := by
  have start : LeastOf descs [] (noDocument, none) := ⟨by simp, by simp⟩
  have whole := start.foldl (List.finRange size)
  intro other busy
  rw [(whole.1 slot found).1]
  exact whole.2 other (by simp) busy

end Minimum

/-! The slots of `mod_rmac2` and the indexer of `mod_daemon_indexer2`. Each label
is one step of one process; what a slot leaves when it dies is its `desc` and
the connections that it made. -/

def success : Int := 1

def fail : Int := -1

def skipDocument : Int := -104

/-- Where the process of a slot stands in `process_main`. The analysed document is
`none` if it is not `is_normal_doc`. -/
inductive Phase where
  | dead
  | started
  | polling (docidToIndex : Nat)
  | analyzing (docid : Nat)
  | waiting (docid : Nat) (rmasData : Option (List UInt8))
  | sending (docid : Nat) (rmasData : Option (List UInt8))
  | connecting (docid : Nat) (rmasData : Option (List UInt8))
  | connected (docid : Nat) (rmasData : Option (List UInt8)) (connection : Nat)
  | headed (docid : Nat) (rmasData : List UInt8) (connection : Nat)
  | awaiting (docid : Nat) (rmasData : Option (List UInt8)) (connection : Nat)
  | sent (docid : Nat) (ret : Int)
deriving DecidableEq, Repr

/-- `notInit` is the `DOCID_NOTINIT` in `userptr`. -/
structure Slot where
  desc : List Char
  notInit : Bool
  phase : Phase
deriving DecidableEq, Repr

inductive Progress where
  | nothing
  | header
  | data
deriving DecidableEq, Repr

/-- A connection with the message on its way to the indexer and the answer on the
way back. -/
structure Connection (size : Nat) where
  slot : Fin size
  docid : Nat
  rmasLength : Int
  rmasData : List UInt8
  progress : Progress
  ret : Option Int
deriving DecidableEq, Repr

/-- Where the indexer stands; it serves the first connection that is not served.
Behind the answer to an indexed document `last_indexed_docid` is still to be set. -/
inductive IndexerPhase where
  | accepting
  | receiving
  | replying (ret : Int) (indexed : Option Nat)
  | updating (docid : Nat)
deriving DecidableEq, Repr

/-- `indexed` and `errorDocuments` are what was appended to the index and to the
error documents, `fetched` which slot got which docid. -/
structure State (size : Nat) (Word : Type) where
  slots : Fin size → Slot
  lastFetchedDocid : Nat
  connections : List (Connection size)
  served : Nat
  indexer : IndexerPhase
  lastIndexedDocid : Nat
  indexed : List (Nat × List Word)
  errorDocuments : List Nat
  fetched : List (Fin size × Nat)

/-- The steps: the first lines are those of a slot, the last those of the indexer. -/
inductive Label (size : Nat) where
  | start (slot : Fin size)
  | fetch (slot : Fin size) (lastRegistered : UInt32)
  | leftover (slot : Fin size)
  | analyze (slot : Fin size) (rmasData : Option (List UInt8))
  | checkMinimum (slot : Fin size)
  | send (slot : Fin size)
  | connect (slot : Fin size)
  | sendHeader (slot : Fin size)
  | sendData (slot : Fin size)
  | giveUp (slot : Fin size)
  | receive (slot : Fin size)
  | setNodoc (slot : Fin size)
  | die (slot : Fin size)
  | respawn (slot : Fin size)
  | accept
  | recv (fails : Bool)
  | reply
  | update
deriving DecidableEq, Repr

section Steps

variable {size : Nat} {Word : Type}

def State.setSlot (state : State size Word) (slot : Fin size) (value : Slot) : State size Word :=
  { state with slots := Function.update state.slots slot value }

def State.setPhase (state : State size Word) (slot : Fin size) (phase : Phase) :
    State size Word :=
  state.setSlot slot { state.slots slot with phase := phase }

def State.docid (state : State size Word) (slot : Fin size) : Nat :=
  getDocid (state.slots slot).desc

/-- The begin of `process_main`. -/
def State.startSlot (state : State size Word) (slot : Fin size) : State size Word :=
  if (state.slots slot).notInit then
    state.setSlot slot ⟨setDocid noDocument, false, .polling noDocument⟩
  else state.setPhase slot (.polling (state.docid slot))

/-- `get_docid_to_index`, with what the slot does with the docid: as an `int` a
docid from 2^31 on is negative, and the slot goes to the begin of its loop. -/
def State.getDocidToIndex (state : State size Word) (slot : Fin size) (lastRegistered : Nat) :
    State size Word :=
  if lastRegistered > state.lastFetchedDocid then
    let docid := state.lastFetchedDocid + 1
    { state.setSlot slot
        ⟨setDocid docid, (state.slots slot).notInit,
          if 2 ^ 31 ≤ docid then .polling docid else .analyzing docid⟩ with
      lastFetchedDocid := docid
      fetched := (slot, docid) :: state.fetched }
  else state.setPhase slot (.polling noDocument)

/-- The length in the header of a message: the lower 32 bits as an `int`. -/
def headerLength (rmasData : Option (List UInt8)) : Int :=
  Int.bmod (rmasData.getD []).length 4294967296

def State.connect (state : State size Word) (slot : Fin size) (docid : Nat)
    (rmasData : Option (List UInt8)) : State size Word :=
  { state.setPhase slot (.connected docid rmasData state.connections.length) with
    connections := state.connections ++
      [⟨slot, docid, headerLength rmasData, rmasData.getD [], .nothing, none⟩] }

def State.setProgress (state : State size Word) (connection : Nat) (progress : Progress) :
    State size Word :=
  { state with
    connections := state.connections.modify connection fun old => { old with progress := progress } }

/-- Behind the header: there is data for a normal document only. -/
def afterHeader (docid connection : Nat) : Option (List UInt8) → Phase
  | none => .awaiting docid none connection
  | some data => .headed docid data connection

/-- The steps of one slot. -/
def slotStep (state : State size Word) (slot : Fin size) : Phase → Label size → Option (State size Word)
  | .started, .start _ => some (state.startSlot slot)
  | .polling docid, .fetch _ lastRegistered =>
    if docid = noDocument then some (state.getDocidToIndex slot lastRegistered.toNat) else none
  | .polling docid, .leftover _ =>
    if docid = noDocument then none else some (state.setPhase slot (.waiting docid none))
  | .analyzing docid, .analyze _ rmasData => some (state.setPhase slot (.waiting docid rmasData))
  | .waiting docid rmasData, .checkMinimum _ =>
    if getMinimumDocidSlot (fun other => (state.slots other).desc) = some slot then
      some (state.setPhase slot (.sending docid rmasData))
    else some state
  | .sending docid rmasData, .send _ =>
    if rmasData = some [] then some (state.setPhase slot (.sent docid fail))
    else some (state.setPhase slot (.connecting docid rmasData))
  | .connecting docid rmasData, .connect _ => some (state.connect slot docid rmasData)
  | .connected docid rmasData connection, .sendHeader _ =>
    some ((state.setPhase slot (afterHeader docid connection rmasData)).setProgress
      connection .header)
  | .headed docid rmasData connection, .sendData _ =>
    some ((state.setPhase slot
      (.awaiting docid (some rmasData) connection)).setProgress connection .data)
  | .connected docid rmasData _, .giveUp _ => some (state.setPhase slot (.connecting docid rmasData))
  | .headed docid rmasData _, .giveUp _ =>
    some (state.setPhase slot (.connecting docid (some rmasData)))
  | .awaiting docid rmasData _, .giveUp _ => some (state.setPhase slot (.connecting docid rmasData))
  | .awaiting docid _ connection, .receive _ =>
    match state.connections[connection]?.bind Connection.ret with
    | none => none
    | some ret => some (state.setPhase slot (.sent docid ret))
  | .sent _ _, .setNodoc _ =>
    some (state.setSlot slot
      ⟨setDocid noDocument, (state.slots slot).notInit, .polling noDocument⟩)
  | .dead, .respawn _ => some (state.setPhase slot .started)
  | .dead, .die _ => none
  | _, .die _ => some (state.setPhase slot .dead)
  | _, _ => none

/-- `recv_from_rmac` on a connection: the length decides before the data is read. -/
def recvFromRmac (connection : Connection size) (fails : Bool) : Option Int :=
  if fails then some fail
  else if connection.progress = .nothing then none
  else if connection.rmasLength ≤ 0 then some skipDocument
  else if connection.progress = .data then some success
  else none

variable (indexWords : List UInt8 → List Word)

/-- What `indexer_main` does with what it received, up to the answer. -/
def State.index (state : State size Word) (connection : Connection size) (ret : Int) :
    State size Word :=
  if ret = skipDocument then
    { state with
      errorDocuments := connection.docid :: state.errorDocuments
      lastIndexedDocid := connection.docid
      indexer := .replying ret none }
  else if ret = fail then { state with indexer := .replying ret none }
  else if state.lastIndexedDocid ≥ connection.docid then
    { state with indexer := .replying ret none }
  else
    { state with
      indexed := state.indexed ++
        [(connection.docid, indexWords (connection.rmasData.take connection.rmasLength.toNat))]
      indexer := .replying success (some connection.docid) }

def State.reply (state : State size Word) (ret : Int) (indexer : IndexerPhase) :
    State size Word :=
  { state with
    connections := state.connections.modify state.served fun old => { old with ret := some ret }
    served := state.served + 1
    indexer := indexer }

def afterReply : Option Nat → IndexerPhase
  | none => .accepting
  | some docid => .updating docid

/-- The steps of the indexer. -/
def indexerStep (state : State size Word) : IndexerPhase → Label size → Option (State size Word)
  | .accepting, .accept =>
    if state.served < state.connections.length then some { state with indexer := .receiving }
    else none
  | .receiving, .recv fails =>
    match state.connections[state.served]? with
    | none => none
    | some connection =>
      match recvFromRmac connection fails with
      | none => none
      | some ret => some (state.index indexWords connection ret)
  | .replying ret indexed, .reply => some (state.reply ret (afterReply indexed))
  | .updating docid, .update =>
    some { state with lastIndexedDocid := docid, indexer := .accepting }
  | _, _ => none

/-- The slot whose step it is. -/
def Label.slot? : Label size → Option (Fin size)
  | .start slot | .fetch slot _ | .leftover slot | .analyze slot _ | .checkMinimum slot
  | .send slot | .connect slot | .sendHeader slot | .sendData slot | .giveUp slot
  | .receive slot | .setNodoc slot | .die slot | .respawn slot => some slot
  | .accept | .recv _ | .reply | .update => none

def step (state : State size Word) (label : Label size) : Option (State size Word) :=
  match label.slot? with
  | some slot => slotStep state slot (state.slots slot).phase label
  | none => indexerStep indexWords state state.indexer label

/-- The scoreboard after `init_scoreboard`; the fetching goes on where the indexer
stopped. -/
def startState (size : Nat) (Word : Type) (lastIndexed : UInt32) : State size Word where
  slots := fun _ => ⟨setDocid noDocument, true, .started⟩
  lastFetchedDocid := lastIndexed.toNat
  connections := []
  served := 0
  indexer := .accepting
  lastIndexedDocid := lastIndexed.toNat
  indexed := []
  errorDocuments := []
  fetched := []

/-- The docids in the posting list of a word, as the appends left them. -/
def State.postings [DecidableEq Word] (state : State size Word) (word : Word) : List Nat :=
  (state.indexed.filter fun document => decide (word ∈ document.2)).map Prod.fst

end Steps

end Wisebot.Rmac
