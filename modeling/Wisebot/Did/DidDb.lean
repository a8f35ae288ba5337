import Mathlib.Data.List.TakeWhile
import Wisebot.Hash.Map
import Wisebot.Lib.Mem

namespace Wisebot.DocId

open Wisebot.Lib Wisebot.Hash

variable {db : DidDb} {offset : DidOffset} {string : List UInt8}

/-! Document ids by key (`mod_did/mod_did.c`), in one process: the lock is held
over each call, and a block that has been allocated stays mapped. A `none`
result is a null or out-of-bounds access. -/

def maxDocidKeyLen : Nat := 1024

def blockDataSize : Nat := 16000000

def didMaxBlockNum : Nat := 256

structure DidOffset where
  blockIdx : BitVec 8
  position : BitVec 24
  deriving DecidableEq

def DidOffset.pack (blockIdx position : Nat) : DidOffset where
  blockIdx := BitVec.ofNat 8 blockIdx
  position := BitVec.ofNat 24 position

structure Block where
  usedBytes : Nat
  data : Mem

def Block.created : Block where
  usedBytes := 0
  data := fun _ => 0

/-- Whether `alloc_mmap` succeeds during one call. -/
structure Env where
  mmapBlock : Nat → Bool
  mmapHash : Nat → Bool

/-- `did_db_custom_t` with its shared data; `lastDid` is a `uint32_t`. -/
structure DidDb where
  lastDid : Nat
  allocBlockNum : Nat
  block : Nat → Option Block
  hash : Table DidOffset Nat

/-- The file of the block does not exist yet. -/
def blockLoad (env : Env) (db : DidDb) (blockIdx : Nat) : DidDb × Bool :=
  if didMaxBlockNum ≤ blockIdx then (db, false)
  else if env.mmapBlock blockIdx then
    ({ db with block := Function.update db.block blockIdx (some .created) }, true)
  else (db, false)

/-- `open_did_db` on files that do not exist yet; `hash_open` calls only
`hash_alloc_data_func`. -/
def openDidDb (md5 : List UInt8 → HashKey) (env : Env) : Option DidDb :=
  let callbacks : Callbacks DidOffset := {
    hashFunc := fun _ => md5 []
    keyEq := fun _ _ => true
    allocData := env.mmapHash }
  match hashOpen callbacks 0 .sorted with
  | none => none
  | some hash =>
    let db : DidDb := {
      lastDid := 0
      allocBlockNum := 0
      block := fun _ => none
      hash := hash }
    match blockLoad env db 0 with
    | (_, false) => none
    | (db, true) => some { db with allocBlockNum := db.allocBlockNum + 1 }

def blockAssignOffset (env : Env) (db : DidDb) (len : Nat) : DidDb × Option DidOffset :=
  let blockIdx := db.allocBlockNum - 1
  let assign := fun (db : DidDb) (usedBytes : Nat) =>
    if blockDataSize - 1 ≤ usedBytes + len then
      match blockLoad env db (blockIdx + 1) with
      | (db, false) => (db, none)
      | (db, true) =>
        ({ db with allocBlockNum := db.allocBlockNum + 1 },
          some (DidOffset.pack (blockIdx + 1) 0))
    else (db, some (DidOffset.pack blockIdx usedBytes))
  match db.block blockIdx with
  | some block => assign db block.usedBytes
  | none =>
    match blockLoad env db blockIdx with
    | (db, false) => (db, none)
    | (db, true) => assign db 0

/-- The `false` is its `FAIL`. -/
def blockWriteData (db : DidDb) (offset : DidOffset) (data : List UInt8) :
    Option (DidDb × Bool) :=
  match db.block offset.blockIdx.toNat with
  | none => none
  | some block =>
    if blockDataSize < offset.position.toNat + data.length then some (db, false)
    else
      some ({ db with
        block := Function.update db.block offset.blockIdx.toNat
          (some { block with data := block.data.write offset.position.toNat data }) }, true)

def blockOffsetIncrease (db : DidDb) (offset : DidOffset) (size : Nat) : DidDb × Bool :=
  match db.block offset.blockIdx.toNat with
  | none => (db, false)
  | some block =>
    let usedBytes := block.usedBytes + size
    ({ db with
      block := Function.update db.block offset.blockIdx.toNat
        (some { block with usedBytes := usedBytes }) },
      ¬ blockDataSize < usedBytes)

def offset2ptr (db : DidDb) (offset : DidOffset) : Option (Mem × Nat) :=
  if db.allocBlockNum ≤ offset.blockIdx.toNat then none
  else
    match db.block offset.blockIdx.toNat with
    | none => none
    | some block => some (block.data, offset.position.toNat)

/-- The string an offset points to. Stored offsets never give a null pointer. -/
def stringAt (db : DidDb) (offset : DidOffset) : List UInt8 :=
  match offset2ptr db offset with
  | none => []
  | some (data, position) => data.cString (blockDataSize - position) position

/-- `hash_func`, `hash_keycmp_func` and `hash_alloc_data_func`; `md5` gives the
first four bytes of the digest. -/
def hashCallbacks (md5 : List UInt8 → HashKey) (env : Env) (db : DidDb) :
    Callbacks DidOffset where
  hashFunc := fun key => md5 (stringAt db key)
  keyEq := fun first second => stringAt db first == stringAt db second
  allocData := env.mmapHash

/-- A key as `did_hash_put` and `did_hash_find` cut it. -/
def cutKey (key : List UInt8) : List UInt8 :=
  (key.takeWhile (· ≠ 0)).take maxDocidKeyLen

inductive DocidResult where
  | newRegistered (docid olddocid : Nat)
  | oldRegistered (docid olddocid : Nat)
  | found (docid : Nat)
  | notRegistered
  | overflow
  | fail
  deriving DecidableEq

def didHashPut (md5 : List UInt8 → HashKey) (env : Env) (db : DidDb) (key : List UInt8)
    (docid : Nat) : Option (DidDb × DocidResult) :=
  let key := cutKey key
  if docid = 0 then some (db, .overflow)
  else
    match blockAssignOffset env db (key.length + 1) with
    | (db, none) => some (db, .fail)
    | (db, some offset) =>
      match blockWriteData db offset (key ++ [0]) with
      | none => none
      | some (db, false) => some (db, .fail)
      | some (db, true) =>
        match hashAdd (hashCallbacks md5 env db) db.hash offset docid with
        | none => none
        | some (hash, .success) =>
          match blockOffsetIncrease { db with hash := hash } offset (key.length + 1) with
          | (db, false) => some (db, .fail)
          | (db, true) => some (db, .newRegistered docid docid)
        | some (hash, .collision stored) =>
          match hashUpdate (hashCallbacks md5 env db) hash offset docid with
          | none => none
          | some (hash, false) => some ({ db with hash := hash }, .fail)
          | some (hash, true) => some ({ db with hash := hash }, .oldRegistered docid stored)
        | some (hash, .overflow) => some ({ db with hash := hash }, .fail)
        | some (hash, .fail) => some ({ db with hash := hash }, .fail)

def didHashFind (md5 : List UInt8 → HashKey) (env : Env) (db : DidDb) (key : List UInt8) :
    Option (DidDb × DocidResult) :=
  let key := cutKey key
  match blockAssignOffset env db (key.length + 1) with
  | (db, none) => some (db, .fail)
  | (db, some offset) =>
    match blockWriteData db offset (key ++ [0]) with
    | none => none
    | some (db, false) => some (db, .fail)
    | some (db, true) =>
      match hashSearch (hashCallbacks md5 env db) db.hash offset with
      | none => none
      | some (some docid) => some (db, .found docid)
      | some none => some (db, .notRegistered)

def getNewDocId (md5 : List UInt8 → HashKey) (env : Env) (db : DidDb) (key : List UInt8) :
    Option (DidDb × DocidResult) :=
  match didHashPut md5 env db key ((db.lastDid + 1) % 2 ^ 32) with
  | none => none
  | some (db, .newRegistered docid olddocid) =>
    some ({ db with lastDid := (db.lastDid + 1) % 2 ^ 32 }, .newRegistered docid olddocid)
  | some (db, .oldRegistered docid olddocid) =>
    some ({ db with lastDid := (db.lastDid + 1) % 2 ^ 32 }, .oldRegistered docid olddocid)
  | some (db, result) => some (db, result)

/-- A key that is not registered also clears the caller's id. -/
def getDocId (md5 : List UInt8 → HashKey) (env : Env) (db : DidDb) (key : List UInt8) :
    Option (DidDb × DocidResult) :=
  didHashFind md5 env db key

inductive Call where
  | getNewDocId (key : List UInt8)
  | getDocId (key : List UInt8)

def Call.run (md5 : List UInt8 → HashKey) (env : Env) (db : DidDb) :
    Call → Option (DidDb × DocidResult)
  | .getNewDocId key => DocId.getNewDocId md5 env db key
  | .getDocId key => DocId.getDocId md5 env db key

def runCalls (md5 : List UInt8 → HashKey) :
    DidDb → List (Env × Call) → Option (DidDb × List DocidResult)
  | db, [] => some (db, [])
  | db, (env, call) :: rest => do
      let (next, result) ← call.run md5 env db
      let (final, results) ← runCalls md5 next rest
      some (final, result :: results)

/-! Keys in the blocks: the key every call writes behind the last stored one
leaves the stored keys alone. -/

theorem cutKey_short (key : List UInt8) : (cutKey key).length ≤ maxDocidKeyLen := by
  rw [cutKey, List.length_take]
  exact Nat.min_le_left _ _

theorem cutKey_nonzero (key : List UInt8) : ∀ byte ∈ cutKey key, byte ≠ 0 := by
  intro byte member
  simpa using List.mem_takeWhile_imp (List.mem_of_mem_take member)

theorem DidOffset.pack_blockIdx (position : Nat) {blockIdx : Nat} (bound : blockIdx < 256) :
    (DidOffset.pack blockIdx position).blockIdx.toNat = blockIdx := by
  simp only [DidOffset.pack, BitVec.toNat_ofNat]
  exact Nat.mod_eq_of_lt bound

theorem DidOffset.pack_position (blockIdx : Nat) {position : Nat}
    (bound : position < blockDataSize) :
    (DidOffset.pack blockIdx position).position.toNat = position := by
  simp only [DidOffset.pack, BitVec.toNat_ofNat]
  exact Nat.mod_eq_of_lt (bound.trans (by decide))

structure StorageInv (db : DidDb) : Prop where
  alloc_pos : 1 ≤ db.allocBlockNum
  alloc_le : db.allocBlockNum ≤ didMaxBlockNum
  mapped : ∀ blockIdx < db.allocBlockNum, ∃ block,
    db.block blockIdx = some block ∧ block.usedBytes ≤ blockDataSize

structure Stored (db : DidDb) (offset : DidOffset) (string : List UInt8) : Prop where
  allocated : offset.blockIdx.toNat < db.allocBlockNum
  held : ∃ block, db.block offset.blockIdx.toNat = some block ∧
    block.data.HoldsString offset.position.toNat string ∧
    offset.position.toNat + string.length + 1 ≤ block.usedBytes

theorem stringAt_of_holds {block : Block} (allocated : offset.blockIdx.toNat < db.allocBlockNum)
    (mapped : db.block offset.blockIdx.toNat = some block)
    (holds : block.data.HoldsString offset.position.toNat string)
    (fits : offset.position.toNat + string.length < blockDataSize) :
    stringAt db offset = string := by
  simp only [stringAt, offset2ptr, if_neg (Nat.not_le.mpr allocated), mapped]
  exact holds.cString (by omega)

theorem Stored.stringAt (stored : Stored db offset string) (inv : StorageInv db) :
    stringAt db offset = string := by
  obtain ⟨block, mapped, holds, used⟩ := stored.held
  obtain ⟨other, otherMapped, usedBound⟩ := inv.mapped _ stored.allocated
  obtain rfl := Option.some.inj (mapped.symm.trans otherMapped)
  exact stringAt_of_holds stored.allocated mapped holds (by omega)

/-- The database with another block at an index below the allocation count. -/
def setBlock (db : DidDb) (blockIdx : Nat) (block : Block) : DidDb :=
  { db with block := Function.update db.block blockIdx (some block) }

theorem StorageInv.setBlock {blockIdx : Nat} {block : Block} (inv : StorageInv db)
    (fits : block.usedBytes ≤ blockDataSize) :
    StorageInv (setBlock db blockIdx block) where
  alloc_pos := inv.alloc_pos
  alloc_le := inv.alloc_le
  mapped := by
    intro other lower
    obtain ⟨old, oldMapped, bound⟩ := inv.mapped other lower
    by_cases same : other = blockIdx
    · subst same
      exact ⟨block, Function.update_self .., fits⟩
    · exact ⟨old, by simp only [DocId.setBlock, Function.update_of_ne same, oldMapped], bound⟩

theorem Stored.setBlock {blockIdx : Nat} {before : Block} (after : Block)
    (stored : Stored db offset string) (mapped : db.block blockIdx = some before)
    (grows : before.usedBytes ≤ after.usedBytes)
    (keeps : before.data.HoldsString offset.position.toNat string →
      offset.position.toNat + string.length + 1 ≤ before.usedBytes →
      after.data.HoldsString offset.position.toNat string) :
    Stored (setBlock db blockIdx after) offset string := by
  obtain ⟨owner, ownerMapped, held, below⟩ := stored.held
  refine ⟨stored.allocated, ?_⟩
  by_cases same : offset.blockIdx.toNat = blockIdx
  · rw [same] at ownerMapped ⊢
    obtain rfl := Option.some.inj (mapped.symm.trans ownerMapped)
    exact ⟨after, Function.update_self .., keeps held below, below.trans grows⟩
  · exact ⟨owner, by simp only [DocId.setBlock, Function.update_of_ne same, ownerMapped], held, below⟩

/-! `block_assign_offset`. -/

/-- What `block_assign_offset` leaves when it succeeds. -/
structure Assigned (db assigned : DidDb) (offset : DidOffset) (len : Nat) : Prop where
  storage : StorageInv assigned
  kept : ∀ other string, Stored db other string → Stored assigned other string
  lastDid_eq : assigned.lastDid = db.lastDid
  hash_eq : assigned.hash = db.hash
  allocated : offset.blockIdx.toNat < assigned.allocBlockNum
  room : offset.position.toNat + len < blockDataSize - 1
  used : ∃ block, assigned.block offset.blockIdx.toNat = some block ∧
    block.usedBytes = offset.position.toNat

theorem Stored.opened {block : Block} (stored : Stored db offset string) :
    Stored { db with
      allocBlockNum := db.allocBlockNum + 1
      block := Function.update db.block db.allocBlockNum (some block) } offset string := by
  obtain ⟨owner, ownerMapped, held, below⟩ := stored.held
  refine ⟨Nat.lt_succ_of_lt stored.allocated, owner, ?_, held, below⟩
  simp only [Function.update_of_ne (Nat.ne_of_lt stored.allocated), ownerMapped]

theorem StorageInv.opened (inv : StorageInv db) (within : db.allocBlockNum < didMaxBlockNum) :
    StorageInv { db with
      allocBlockNum := db.allocBlockNum + 1
      block := Function.update db.block db.allocBlockNum (some .created) } where
  alloc_pos := Nat.le_add_left _ _
  alloc_le := within
  mapped := by
    intro blockIdx lower
    rcases Nat.lt_succ_iff_lt_or_eq.mp lower with older | rfl
    · obtain ⟨block, mapped, bound⟩ := inv.mapped blockIdx older
      exact ⟨block, by simp only [Function.update_of_ne (Nat.ne_of_lt older), mapped], bound⟩
    · exact ⟨_, Function.update_self .., Nat.zero_le _⟩

theorem blockAssignOffset_assigned {env : Env} {assigned : DidDb} {len : Nat} (inv : StorageInv db)
    (short : len ≤ maxDocidKeyLen + 1)
    (result : blockAssignOffset env db len = (assigned, some offset)) :
    Assigned db assigned offset len := by
  have positive := inv.alloc_pos
  have small : db.allocBlockNum ≤ 256 := inv.alloc_le
  simp only [maxDocidKeyLen] at short
  obtain ⟨block, mapped, usedBound⟩ := inv.mapped (db.allocBlockNum - 1) (by omega)
  have next : db.allocBlockNum - 1 + 1 = db.allocBlockNum := by omega
  simp only [blockAssignOffset, mapped, next] at result
  split at result
  case isTrue full =>
    rcases Nat.lt_or_ge db.allocBlockNum didMaxBlockNum with within | beyond
    · simp only [blockLoad, if_neg (Nat.not_le.mpr within)] at result
      cases mappable : env.mmapBlock db.allocBlockNum with
      | false => simp [mappable] at result
      | true =>
        simp only [mappable, if_true, Prod.mk.injEq, Option.some.injEq] at result
        obtain ⟨rfl, rfl⟩ := result
        have index := DidOffset.pack_blockIdx 0 (show db.allocBlockNum < 256 from within)
        have position := DidOffset.pack_position db.allocBlockNum
          (show 0 < blockDataSize by decide)
        refine ⟨inv.opened within, fun _ _ stored => stored.opened, rfl, rfl, ?_, ?_, ?_⟩
        · rw [index]
          exact Nat.lt_succ_self _
        · rw [position]
          simp only [blockDataSize]
          omega
        · rw [index, position]
          exact ⟨_, Function.update_self .., rfl⟩
    · simp [blockLoad, beyond] at result
  case isFalse room =>
    simp only [Prod.mk.injEq, Option.some.injEq] at result
    obtain ⟨rfl, rfl⟩ := result
    have index := DidOffset.pack_blockIdx block.usedBytes
      (show db.allocBlockNum - 1 < 256 by omega)
    have position := DidOffset.pack_position (db.allocBlockNum - 1)
      (show block.usedBytes < blockDataSize by omega)
    refine ⟨inv, fun _ _ stored => stored, rfl, rfl, ?_, ?_, ?_⟩
    · rw [index]
      omega
    · rw [position]
      omega
    · rw [index, position]
      exact ⟨block, mapped, rfl⟩

/-! `block_write_data` and `block_offset_increase`. -/

/-- The state in which the hash is searched: `string` stands at `offset`, behind
the used bytes of its block. -/
structure Probed (db probed : DidDb) (offset : DidOffset) (string : List UInt8) : Prop
    extends Assigned db probed offset (string.length + 1) where
  holds : ∃ block, probed.block offset.blockIdx.toNat = some block ∧
    block.usedBytes = offset.position.toNat ∧
    block.data.HoldsString offset.position.toNat string

theorem Assigned.blockWriteData {assigned : DidDb}
    (place : Assigned db assigned offset (string.length + 1))
    (nonzero : ∀ byte ∈ string, byte ≠ 0) :
    ∃ probed, blockWriteData assigned offset (string ++ [0]) = some (probed, true) ∧
      Probed db probed offset string := by
  obtain ⟨block, mapped, used⟩ := place.used
  have room := place.room
  have fits : ¬ blockDataSize < offset.position.toNat + (string ++ [0]).length := by
    simp only [List.length_append, List.length_singleton]
    omega
  let written : Block :=
    { block with data := block.data.write offset.position.toNat (string ++ [0]) }
  refine ⟨setBlock assigned offset.blockIdx.toNat written, ?_, ?_⟩
  · simp only [DocId.blockWriteData, mapped, if_neg fits]
    rfl
  · refine { place with
      storage := place.storage.setBlock ?_
      kept := ?_
      used := ⟨written, Function.update_self .., used⟩
      holds := ⟨written, Function.update_self .., used, .of_write _ _ nonzero⟩ }
    · obtain ⟨other, otherMapped, bound⟩ := place.storage.mapped _ place.allocated
      obtain rfl := Option.some.inj (mapped.symm.trans otherMapped)
      exact bound
    · intro other held stored
      refine (place.kept other held stored).setBlock written mapped le_rfl ?_
      intro holds below
      exact holds.frame (.inl (by omega))

theorem Probed.stringAt {probed : DidDb} (probe : Probed db probed offset string) :
    stringAt probed offset = string := by
  obtain ⟨block, mapped, _, holds⟩ := probe.holds
  have room := probe.room
  exact stringAt_of_holds probe.allocated mapped holds (by omega)

/-- The state after `block_offset_increase`: the key is stored. -/
structure Grown (db grown : DidDb) (hash : Table DidOffset Nat) (offset : DidOffset)
    (string : List UInt8) : Prop where
  storage : StorageInv grown
  kept : ∀ other held, Stored db other held → Stored grown other held
  stored : Stored grown offset string
  lastDid_eq : grown.lastDid = db.lastDid
  hash_eq : grown.hash = hash

theorem Probed.increase {probed : DidDb} (probe : Probed db probed offset string)
    (hash : Table DidOffset Nat) :
    ∃ grown, blockOffsetIncrease { probed with hash := hash } offset (string.length + 1) =
      (grown, true) ∧ Grown db grown hash offset string := by
  obtain ⟨block, mapped, used, holds⟩ := probe.holds
  have room := probe.room
  have fits : ¬ blockDataSize < block.usedBytes + (string.length + 1) := by omega
  let grown : Block := { block with usedBytes := block.usedBytes + (string.length + 1) }
  have sameStorage : StorageInv { probed with hash := hash } :=
    ⟨probe.storage.alloc_pos, probe.storage.alloc_le, probe.storage.mapped⟩
  refine ⟨setBlock { probed with hash := hash } offset.blockIdx.toNat grown, ?_, ?_⟩
  · simp only [blockOffsetIncrease, mapped, fits, not_false_eq_true, decide_true]
    rfl
  · refine ⟨sameStorage.setBlock (Nat.le_of_not_lt fits), ?_, ?_, probe.lastDid_eq, rfl⟩
    · intro other held stored
      have stays := probe.kept other held stored
      have same : Stored { probed with hash := hash } other held := ⟨stays.allocated, stays.held⟩
      exact same.setBlock grown mapped (Nat.le_add_right _ _) fun held _ => held
    · refine ⟨probe.allocated, grown, Function.update_self .., holds, ?_⟩
      simp only [grown]
      omega

end Wisebot.DocId
