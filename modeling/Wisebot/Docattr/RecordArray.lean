import Wisebot.Lib.Mem

namespace Wisebot.Docattr2

open Wisebot.Lib

/-! The attribute records as one mapped array: `mod_docattr/mod_docattr2.c`. Offsets are
products of 32 bits, added to the address of the array as they are. -/

def maxDocattrElementSize : UInt32 := 64

/-- What `atoi` has read, stored in a `uint32_t`. -/
def toUInt32 (value : Int) : UInt32 := UInt32.ofNat (value % 4294967296).toNat

def getMaxDocNum (value : Int) : UInt32 := toUInt32 value

def getDocattrSize (value : Int) : UInt32 :=
  if maxDocattrElementSize < toUInt32 value then maxDocattrElementSize else toUInt32 value

/-- A configuration with `MaxDocNum` at least 1 and a `DocAttrSize` that is accepted. -/
structure Config where
  maxDocNum : UInt32
  docattrSize : UInt32
  someDoc : 1 ≤ maxDocNum.toNat
  isInt : maxDocNum.toNat < 2147483648
  someByte : 1 ≤ docattrSize.toNat
  elementSize : docattrSize.toNat ≤ 64

theorem toNat_toUInt32 {value : Int} (positive : 1 ≤ value) (isInt : value < 2147483648) :
    (toUInt32 value).toNat = value.toNat := by
  rw [toUInt32, UInt32.toNat_ofNat_of_lt' (by simp only [UInt32.size]; omega)]
  omega

theorem toNat_getDocattrSize {value : Int} (positive : 1 ≤ value) (isInt : value < 2147483648) :
    (getDocattrSize value).toNat = min value.toNat 64 := by
  have isValue := toNat_toUInt32 positive isInt
  have isElement : maxDocattrElementSize.toNat = 64 := rfl
  rw [getDocattrSize]
  split
  case isTrue big =>
    rw [UInt32.lt_iff_toNat_lt] at big
    omega
  case isFalse small =>
    rw [UInt32.lt_iff_toNat_lt] at small
    omega

def Config.ofDirectives (maxDocNum docattrSize : Int) (someDoc : 1 ≤ maxDocNum)
    (isInt : maxDocNum < 2147483648) (someByte : 1 ≤ docattrSize)
    (sizeIsInt : docattrSize < 2147483648) : Config where
  maxDocNum := getMaxDocNum maxDocNum
  docattrSize := getDocattrSize docattrSize
  someDoc := (toNat_toUInt32 someDoc isInt).symm ▸ Int.toNat_le_toNat someDoc
  isInt := (toNat_toUInt32 someDoc isInt).symm ▸ (Int.toNat_lt (Int.le_trans Int.one_nonneg someDoc)).mpr isInt
  someByte := (toNat_getDocattrSize someByte sizeIsInt).symm ▸
    le_min (Int.toNat_le_toNat someByte) (Nat.le_of_ble_eq_true rfl)
  elementSize := (toNat_getDocattrSize someByte sizeIsInt).symm ▸ min_le_right _ _

/-- The mapping, and the file: behind its end the bytes are 0. -/
structure Store where
  mapped : Bool
  fileSize : Nat
  bytes : Mem

/-- A function on records of one size, as a mask function is. -/
structure Change (size : Nat) where
  apply : List UInt8 → List UInt8
  length_apply : ∀ record, (apply record).length = size

def Change.store {size : Nat} (record : List UInt8) (length : record.length = size) :
    Change size := ⟨fun _ => record, fun _ => length⟩

namespace Config

variable (config : Config)

/-- `DOCATTR_ELEMENT_SIZE` -/
def size : Nat := config.docattrSize.toNat

/-- `max_doc_num * DOCATTR_ELEMENT_SIZE`, the length of the mapping. -/
def mapLength : Nat := (config.maxDocNum * config.docattrSize).toNat

/-- `(docid-1)*DOCATTR_ELEMENT_SIZE` -/
def recordOffset (docid : UInt32) : Nat := ((docid - 1) * config.docattrSize).toNat

/-- `((int)docid-1)*DOCATTR_ELEMENT_SIZE` -/
def recordOffsetInt (docid : UInt32) : Nat :=
  ((docid.toInt32 - 1).toUInt32 * config.docattrSize).toNat

/-- No byte of the record at the offset is outside of the mapping. -/
def Inside (offset : Nat) : Prop := offset + config.size ≤ config.mapLength

instance (offset : Nat) : Decidable (config.Inside offset) :=
  inferInstanceAs (Decidable (_ ≤ _))

/-- `opens` says whether the system calls are successful; a mapping of no bytes never is. -/
def docattrOpen (opens : Bool) (store : Store) : Bool × Store :=
  if opens && config.mapLength ≠ 0 then
    (true, { store with mapped := true, fileSize := max store.fileSize config.mapLength })
  else (false, store)

/-- `if (docattr_array == NULL && docattr_open() != TRUE) return FALSE;` -/
def opened (opens : Bool) (store : Store) : Bool × Store :=
  if store.mapped then (true, store) else config.docattrOpen opens store

/-- The record at the offset is read and rewritten; `none` is an access outside of the
mapping. -/
def changeRecord (store : Store) (offset : Nat) (change : Change config.size) : Option Store :=
  if config.Inside offset then
    some { store with
      bytes := store.bytes.write offset (change.apply (store.bytes.read offset config.size)) }
  else none

/-- What a call returns: `FALSE`, or `TRUE` and what is handed out. -/
abbrev Answer := Option (List UInt8)

def whenOpen (opens : Bool) (store : Store) (body : Store → Option (Answer × Store)) :
    Option (Answer × Store) :=
  if (config.opened opens store).1 then body (config.opened opens store).2
  else some (none, (config.opened opens store).2)

def docattrGet (opens : Bool) (store : Store) (docid : UInt32) : Option (Answer × Store) :=
  config.whenOpen opens store fun store =>
    if config.Inside (config.recordOffset docid) then
      some (some (store.bytes.read (config.recordOffset docid) config.size), store)
    else none

/-- The pointer is handed out, and the caller reads and rewrites the record that it
points to. -/
def docattrPtrGet (opens : Bool) (store : Store) (docid : UInt32) (change : Change config.size) :
    Option (Answer × Store) :=
  config.whenOpen opens store fun store =>
    (config.changeRecord store (config.recordOffset docid) change).map fun next => (some [], next)

def docattrSet (opens : Bool) (store : Store) (docid : UInt32) (change : Change config.size) :
    Option (Answer × Store) :=
  config.whenOpen opens store fun store =>
    if config.maxDocNum ≤ docid then some (none, store)
    else
      (config.changeRecord store (config.recordOffsetInt docid) change).map
        fun next => (some [], next)

/-- The loop over `did_list`. -/
def setEach (mask : Change config.size) : Store → List UInt32 → Option (Answer × Store)
  | store, [] => some (some [], store)
  | store, docid :: rest =>
    if config.maxDocNum ≤ docid then some (none, store)
    else
      (config.changeRecord store (config.recordOffset docid) mask).bind
        fun next => setEach mask next rest

def docattrSetArray (opens : Bool) (store : Store) (didList : List UInt32)
    (mask : Change config.size) : Option (Answer × Store) :=
  config.whenOpen opens store fun store => config.setEach mask store didList

inductive Call
  | get (opens : Bool) (docid : UInt32)
  | ptrGet (opens : Bool) (docid : UInt32) (change : Change config.size)
  | set (opens : Bool) (docid : UInt32) (change : Change config.size)
  | setArray (opens : Bool) (didList : List UInt32) (mask : Change config.size)

def step (store : Store) : config.Call → Option (Answer × Store)
  | .get opens docid => config.docattrGet opens store docid
  | .ptrGet opens docid change => config.docattrPtrGet opens store docid change
  | .set opens docid change => config.docattrSet opens store docid change
  | .setArray opens didList mask => config.docattrSetArray opens store didList mask

/-- The store after the calls, if none of them touches a byte outside of the mapping. -/
def run (store : Store) : List config.Call → Option Store
  | [] => some store
  | call :: rest => (config.step store call).bind fun answered => run answered.2 rest

structure Table where
  mapped : Bool
  records : UInt32 → List UInt8

def startTable (store : Store) : Table where
  mapped := store.mapped
  records := fun docid => store.bytes.read (config.recordOffset docid) config.size

end Config

namespace Config.Table

variable {config : Config}

def taken (config : Config) (didList : List UInt32) : List UInt32 :=
  didList.takeWhile fun docid => decide (docid < config.maxDocNum)

def change (table : Table) (docid : UInt32) (change : Change config.size) : Table :=
  { table with
    records := Function.update table.records docid (change.apply (table.records docid)) }

def changes : config.Call → List (UInt32 × Change config.size)
  | .get _ _ => []
  | .ptrGet _ docid change => [(docid, change)]
  | .set _ docid change => if config.maxDocNum ≤ docid then [] else [(docid, change)]
  | .setArray _ didList mask => (taken config didList).map fun docid => (docid, mask)

def opens : config.Call → Bool
  | .get opens _ => opens
  | .ptrGet opens _ _ => opens
  | .set opens _ _ => opens
  | .setArray opens _ _ => opens

def opened (table : Table) (call : config.Call) : Bool :=
  table.mapped || (opens call && config.mapLength ≠ 0)

def call (table : Table) (call : config.Call) : Table :=
  if table.opened call then
    (changes call).foldl (fun table entry => table.change entry.1 entry.2)
      { table with mapped := true }
  else table

def openAnswer (table : Table) : config.Call → Answer
  | .get _ docid => some (table.records docid)
  | .ptrGet _ _ _ => some []
  | .set _ docid _ => if config.maxDocNum ≤ docid then none else some []
  | .setArray _ didList _ => if taken config didList = didList then some [] else none

/-- What the call returns. -/
def answer (table : Table) (call : config.Call) : Answer :=
  if table.opened call then table.openAnswer call else none

end Config.Table

namespace Config

variable (config : Config)

def tableAfter (start : Store) (calls : List config.Call) : Table :=
  calls.foldl Table.call (config.startTable start)

/-- Document 1 begins at the start of the mapping, and the record of the document ends in
it, with products of any size. -/
def Addressed (docid : UInt32) : Prop :=
  1 ≤ docid.toNat ∧ docid.toNat * config.size ≤ config.mapLength

instance (docid : UInt32) : Decidable (config.Addressed docid) :=
  inferInstanceAs (Decidable (_ ∧ _))

variable {config}

/-- The documents whose records the call reads or writes if the array is mapped. -/
def Call.docids : config.Call → List UInt32
  | .get _ docid => [docid]
  | .ptrGet _ docid _ => [docid]
  | .set _ docid _ => if config.maxDocNum ≤ docid then [] else [docid]
  | .setArray _ didList _ => Table.taken config didList

/-- If the array is mapped, every document that the call does not refuse is addressed. -/
def Call.Allowed (table : Table) (call : config.Call) : Prop :=
  table.opened call = true → ∀ docid ∈ call.docids, config.Addressed docid

instance (table : Table) (call : config.Call) : Decidable (call.Allowed table) :=
  have := List.decidableBAll config.Addressed call.docids
  inferInstanceAs (Decidable (_ → _))

theorem recordOffsetInt_eq (docid : UInt32) :
    config.recordOffsetInt docid = config.recordOffset docid := rfl

theorem mapLength_lt : config.mapLength < 4294967296 := UInt32.toNat_lt _

theorem recordOffset_eq {docid : UInt32} (addressed : config.Addressed docid) :
    config.recordOffset docid = (docid.toNat - 1) * config.size := by
  have someDoc := addressed.1
  have within : (docid.toNat - 1) * config.size ≤ docid.toNat * config.size :=
    Nat.mul_le_mul_right _ (Nat.sub_le _ _)
  have before : (docid - 1).toNat = docid.toNat - 1 :=
    UInt32.toNat_sub_of_le docid 1 (UInt32.le_iff_toNat_le.mpr someDoc)
  have small : (docid.toNat - 1) * config.size < 4294967296 :=
    Nat.lt_of_le_of_lt (Nat.le_trans within addressed.2) mapLength_lt
  rw [recordOffset, UInt32.toNat_mul, before]
  exact Nat.mod_eq_of_lt small

theorem recordOffset_add {docid : UInt32} (addressed : config.Addressed docid) :
    config.recordOffset docid + config.size = docid.toNat * config.size := by
  have someDoc := addressed.1
  rw [recordOffset_eq addressed, ← Nat.succ_mul]
  congr 1
  omega

theorem inside_of_addressed {docid : UInt32} (addressed : config.Addressed docid) :
    config.Inside (config.recordOffset docid) := by
  rw [Inside, recordOffset_add addressed]
  exact addressed.2

theorem apart_of_ne {first second : UInt32} (isFirst : config.Addressed first)
    (isSecond : config.Addressed second) (other : first ≠ second) :
    config.recordOffset first + config.size ≤ config.recordOffset second ∨
      config.recordOffset second + config.size ≤ config.recordOffset first := by
  have different : first.toNat ≠ second.toNat := fun same => other (UInt32.toNat_inj.mp same)
  rw [recordOffset_add isFirst, recordOffset_add isSecond, recordOffset_eq isFirst,
    recordOffset_eq isSecond]
  rcases Nat.lt_or_gt_of_ne different with less | greater
  · exact .inl (Nat.mul_le_mul_right _ (by omega))
  · exact .inr (Nat.mul_le_mul_right _ (by omega))

/-- A document that is not addressed has its record outside of the mapping or on the
record of another that is. -/
theorem outside_or_shared {docid : UInt32} (notAddressed : ¬ config.Addressed docid) :
    ¬ config.Inside (config.recordOffset docid) ∨
      ∃ other, config.Addressed other ∧ other ≠ docid ∧
        config.recordOffset other ≤ config.recordOffset docid ∧
        config.recordOffset docid < config.recordOffset other + config.size := by
  by_cases inside : config.Inside (config.recordOffset docid)
  case neg => exact .inl inside
  case pos =>
    have someByte : 0 < config.size := config.someByte
    have whole := Nat.div_mul_le_self (config.recordOffset docid) config.size
    have rest : config.recordOffset docid <
        config.recordOffset docid / config.size * config.size + config.size :=
      Nat.lt_div_mul_add someByte
    have atMost : (config.recordOffset docid / config.size + 1) * config.size ≤
        config.mapLength := by
      rw [Nat.succ_mul]
      have inMap := inside
      rw [Inside] at inMap
      omega
    have small : config.recordOffset docid / config.size + 1 < 4294967296 := by
      have more := Nat.le_mul_of_pos_right (config.recordOffset docid / config.size + 1) someByte
      have limit := @mapLength_lt config
      omega
    have isNumber : (UInt32.ofNat (config.recordOffset docid / config.size + 1)).toNat =
        config.recordOffset docid / config.size + 1 := UInt32.toNat_ofNat_of_lt' small
    have addressed :
        config.Addressed (UInt32.ofNat (config.recordOffset docid / config.size + 1)) := by
      rw [Addressed, isNumber]
      exact ⟨Nat.le_add_left 1 _, atMost⟩
    refine .inr ⟨_, addressed, ?_, ?_, ?_⟩
    · intro same
      rw [same] at addressed
      exact notAddressed addressed
    · rw [recordOffset_eq addressed, isNumber, Nat.add_sub_cancel]
      exact whole
    · rw [recordOffset_add addressed, isNumber, Nat.succ_mul]
      exact rest

structure Agrees (config : Config) (store : Store) (table : Table) : Prop where
  mapped : store.mapped = table.mapped
  records : ∀ docid, config.Addressed docid →
    store.bytes.read (config.recordOffset docid) config.size = table.records docid

theorem agrees_start (config : Config) (store : Store) :
    config.Agrees store (config.startTable store) where
  mapped := rfl
  records := fun _ _ => rfl

theorem Agrees.changeRecord {store : Store} {table : Table}
    (agrees : config.Agrees store table) {docid : UInt32}
    (addressed : config.Addressed docid) (change : Change config.size) :
    ∃ next, config.changeRecord store (config.recordOffset docid) change = some next ∧
      config.Agrees next (table.change docid change) := by
  have length := change.length_apply (store.bytes.read (config.recordOffset docid) config.size)
  refine ⟨_, if_pos (inside_of_addressed addressed), agrees.mapped, ?_⟩
  intro other isOther
  by_cases same : other = docid
  · subst same
    have written := store.bytes.read_write (config.recordOffset other)
      (change.apply (store.bytes.read (config.recordOffset other) config.size))
    rw [length] at written
    rw [written, agrees.records other isOther]
    exact (Function.update_self other _ table.records).symm
  · refine Eq.trans (Mem.read_write_disjoint ?_) ?_
    · rw [length]
      exact apart_of_ne isOther addressed same
    · rw [agrees.records other isOther]
      exact (Function.update_of_ne same _ table.records).symm

theorem Agrees.opened {store : Store} {table : Table}
    (agrees : config.Agrees store table) (call : config.Call)
    (isOpen : table.opened call = true) :
    (config.opened (Table.opens call) store).1 = true ∧
      config.Agrees (config.opened (Table.opens call) store).2
        { table with mapped := true } := by
  rw [Table.opened, ← agrees.mapped] at isOpen
  rw [Config.opened]
  cases mapped : store.mapped with
  | true => exact ⟨rfl, mapped, agrees.records⟩
  | false =>
    rw [mapped, Bool.false_or] at isOpen
    rw [if_neg Bool.false_ne_true, docattrOpen, if_pos isOpen]
    exact ⟨rfl, rfl, agrees.records⟩

theorem Agrees.notOpened {store : Store} {table : Table}
    (agrees : config.Agrees store table) (call : config.Call)
    (notOpen : table.opened call = false) :
    config.opened (Table.opens call) store = (false, store) := by
  rw [Table.opened, ← agrees.mapped, Bool.or_eq_false_iff] at notOpen
  rw [Config.opened, notOpen.1, if_neg Bool.false_ne_true, docattrOpen, notOpen.2,
    if_neg Bool.false_ne_true]

theorem Agrees.whenOpen {store : Store} {table : Table}
    (agrees : config.Agrees store table) {call : config.Call} (allowed : call.Allowed table)
    {body : Store → Option (Answer × Store)} {answer : Answer} {after : Table}
    (isStep : config.step store call = config.whenOpen (Table.opens call) store body)
    (isAnswer : table.answer call = if table.opened call then answer else none)
    (isTable : table.call call = if table.opened call then after else table)
    (isBody : (∀ docid ∈ call.docids, config.Addressed docid) → ∀ store,
      config.Agrees store { table with mapped := true } →
        ∃ next, body store = some (answer, next) ∧ config.Agrees next after) :
    ∃ next, config.step store call = some (table.answer call, next) ∧
      config.Agrees next (table.call call) := by
  rw [isStep, isAnswer, isTable, Config.whenOpen]
  cases isOpen : table.opened call with
  | true =>
    obtain ⟨opened, openAgrees⟩ := agrees.opened call isOpen
    rw [if_pos opened]
    exact isBody (allowed isOpen) _ openAgrees
  | false =>
    rw [agrees.notOpened call isOpen]
    exact ⟨store, rfl, agrees⟩

theorem Agrees.setEach {store : Store} {table : Table}
    (agrees : config.Agrees store table) (mask : Change config.size)
    (didList : List UInt32)
    (addressed : ∀ docid ∈ Table.taken config didList, config.Addressed docid) :
    ∃ next, config.setEach mask store didList =
        some (if Table.taken config didList = didList then some [] else none, next) ∧
      config.Agrees next
        ((Table.taken config didList).foldl (fun table docid => table.change docid mask) table) := by
  induction didList generalizing store table with
  | nil => exact ⟨store, rfl, agrees⟩
  | cons docid rest induction =>
    rw [Config.setEach]
    by_cases refused : config.maxDocNum ≤ docid
    · have none : Table.taken config (docid :: rest) = [] :=
        List.takeWhile_cons_of_neg (by simpa using refused)
      rw [if_pos refused, none, if_neg (by simp)]
      exact ⟨store, rfl, agrees⟩
    · have isTaken : Table.taken config (docid :: rest) = docid :: Table.taken config rest :=
        List.takeWhile_cons_of_pos (by simpa using refused)
      rw [isTaken] at addressed ⊢
      obtain ⟨next, changed, nextAgrees⟩ :=
        agrees.changeRecord (addressed docid List.mem_cons_self) mask
      obtain ⟨final, ran, finalAgrees⟩ := induction nextAgrees
        fun other member => addressed other (List.mem_cons_of_mem _ member)
      refine ⟨final, ?_, finalAgrees⟩
      rw [if_neg refused, changed, Option.bind_some, ran]
      simp

theorem Agrees.step {store : Store} {table : Table}
    (agrees : config.Agrees store table) {call : config.Call}
    (allowed : call.Allowed table) :
    ∃ next, config.step store call = some (table.answer call, next) ∧
      config.Agrees next (table.call call) := by
  cases call with
  | get opens docid =>
    apply agrees.whenOpen allowed (rfl : config.docattrGet opens store docid = _) rfl rfl
    intro addressed store agrees
    have isAddressed := addressed docid (List.mem_singleton_self _)
    refine ⟨store, ?_, agrees⟩
    rw [if_pos (inside_of_addressed isAddressed), agrees.records docid isAddressed]
    rfl
  | ptrGet opens docid change =>
    apply agrees.whenOpen allowed (rfl : config.docattrPtrGet opens store docid change = _) rfl rfl
    intro addressed store agrees
    obtain ⟨next, changed, nextAgrees⟩ :=
      agrees.changeRecord (addressed docid (List.mem_singleton_self _)) change
    exact ⟨next, by rw [changed]; rfl, nextAgrees⟩
  | set opens docid change =>
    apply agrees.whenOpen allowed (rfl : config.docattrSet opens store docid change = _) rfl rfl
    intro addressed store agrees
    rw [Call.docids] at addressed
    rw [Table.openAnswer, Table.changes]
    by_cases refused : config.maxDocNum ≤ docid
    · rw [if_pos refused, if_pos refused, if_pos refused]
      exact ⟨store, rfl, agrees⟩
    · rw [if_neg refused] at addressed
      rw [if_neg refused, if_neg refused, if_neg refused]
      obtain ⟨next, changed, nextAgrees⟩ :=
        agrees.changeRecord (addressed docid (List.mem_singleton_self _)) change
      exact ⟨next, by rw [recordOffsetInt_eq, changed]; rfl, nextAgrees⟩
  | setArray opens didList mask =>
    apply agrees.whenOpen allowed (rfl : config.docattrSetArray opens store didList mask = _) rfl rfl
    intro addressed store agrees
    have each := agrees.setEach mask didList addressed
    rw [Table.changes, List.foldl_map]
    exact each

theorem Agrees.run {store : Store} {table : Table}
    (agrees : config.Agrees store table) {calls : List config.Call}
    (allowed : ∀ index, ∀ bound : index < calls.length,
      calls[index].Allowed ((calls.take index).foldl Table.call table)) :
    ∃ next, config.run store calls = some next ∧
      config.Agrees next (calls.foldl Table.call table) := by
  induction calls generalizing store table with
  | nil => exact ⟨store, rfl, agrees⟩
  | cons call rest induction =>
    have first : call.Allowed table := allowed 0 (by simp)
    obtain ⟨next, stepped, nextAgrees⟩ := agrees.step first
    obtain ⟨final, ran, finalAgrees⟩ := induction nextAgrees
      fun index bound => allowed (index + 1) (by simpa using bound)
    refine ⟨final, ?_, finalAgrees⟩
    rw [Config.run, stepped]
    exact ran

/-- A run whose calls only go to addressed documents touches no byte outside of the
mapping, and every call answers with the record last stored for its document; the record
of any other document is outside of the mapping or on that of an addressed one. -/
theorem records_apart_iff (config : Config) (start : Store) (calls : List config.Call)
    (allowed : ∀ index, ∀ bound : index < calls.length,
      calls[index].Allowed (config.tableAfter start (calls.take index))) :
    (∃ final, config.run start calls = some final ∧
      ∀ call : config.Call, call.Allowed (config.tableAfter start calls) →
        ∃ next, config.step final call =
          some ((config.tableAfter start calls).answer call, next)) ∧
      ∀ docid, config.Addressed docid ↔
        config.Inside (config.recordOffset docid) ∧
          ∀ other, config.Addressed other → other ≠ docid →
            config.recordOffset other + config.size ≤ config.recordOffset docid ∨
              config.recordOffset docid + config.size ≤ config.recordOffset other := by
  obtain ⟨final, ran, agrees⟩ := (agrees_start config start).run allowed
  refine ⟨⟨final, ran, ?_⟩, ?_⟩
  · intro call isAllowed
    obtain ⟨next, stepped, _⟩ := agrees.step isAllowed
    exact ⟨next, stepped⟩
  · intro docid
    constructor
    · intro addressed
      exact ⟨inside_of_addressed addressed,
        fun other isOther different => apart_of_ne isOther addressed different⟩
    · rintro ⟨inside, apart⟩
      by_contra notAddressed
      rcases outside_or_shared notAddressed with outside | ⟨other, isOther, different, below, above⟩
      · exact outside inside
      · have someByte := config.someByte
        have isSize : config.size = config.docattrSize.toNat := rfl
        rcases apart other isOther different with before | behind
        · omega
        · omega

def fewConfig : Config :=
  ⟨10, 4, Nat.le_of_ble_eq_true rfl, Nat.le_of_ble_eq_true rfl, Nat.le_of_ble_eq_true rfl,
    Nat.le_of_ble_eq_true rfl⟩

/-- The product of the number of documents and the size is 2 ^ 32 + 128. -/
def manyConfig : Config :=
  ⟨67108866, 64, Nat.le_of_ble_eq_true rfl, Nat.le_of_ble_eq_true rfl,
    Nat.le_of_ble_eq_true rfl, Nat.le_of_ble_eq_true rfl⟩

def fill (size : Nat) (byte : UInt8) : Change size :=
  .store (List.replicate size byte) (List.length_replicate ..)

def newStore : Store := ⟨false, 0, fun _ => 0⟩

theorem records_apart_two :
    (fewConfig.run newStore [.set true 1 (fill _ 7), .set true 2 (fill _ 8),
      .get true 1]).isSome = true := by
  obtain ⟨⟨final, ran, _⟩, _⟩ := records_apart_iff fewConfig newStore
    [.set true 1 (fill _ 7), .set true 2 (fill _ 8), .get true 1] (by decide +kernel)
  rw [ran]
  rfl

/-- What is stored for document 0 goes behind the mapping; and documents 1 and 67108865
have one record. -/
theorem records_notApart :
    (fewConfig.run newStore [.set true 0 (fill _ 7)]).isNone = true ∧
      (manyConfig.run newStore [.set true 1 (fill _ 7), .set true 67108865 (fill _ 8)]).any
        (fun store => (manyConfig.step store (.get true 1)).any
          fun answered => answered.1 = some (List.replicate 64 8)) = true := by
  decide +kernel

end Config

end Wisebot.Docattr2
