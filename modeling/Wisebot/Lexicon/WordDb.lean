import Wisebot.Hash.Table
import Wisebot.Lib.Mem

namespace Wisebot.Lexicon

open Wisebot.Lib Wisebot.Hash

/-! `mod_lexicon` over the dynamic hash index, in one process: every block
below the allocation counts stays mapped, so the lazy reloads of
`offset2ptr` do not occur. A `none` result is a null or out-of-bounds access. -/

def maxWordLen : Nat := 40

def maxBlockNum : Nat := 254

def blockDataSize : Nat := 16000000

/-- `sizeof(internal_word_t)`. -/
def internalWordSize : Nat := 4

def numWordsPerBlock : Nat := blockDataSize / internalWordSize

structure WordOffset where
  blockIdx : BitVec 8
  offset : BitVec 24
  deriving DecidableEq

def WordOffset.pack (blockIdx offset : Nat) : WordOffset :=
  { blockIdx := BitVec.ofNat 8 blockIdx
    offset := BitVec.ofNat 24 offset }

/-- `word_block_t`. -/
structure Block (Contents : Type) where
  usedBytes : Nat
  data : Contents

inductive BlockType where
  | typeFixed
  | typeVariable

/-- Whether `alloc_mmap` succeeds for a block during one call. -/
structure Env where
  mmapBlock : BlockType → Nat → Bool
  mmapHash : Nat → Bool

/-- `lexicon_t` with its shared data; `last_wordid` never exceeds the number of
stored strings, so it does not wrap. -/
structure WordDb where
  lastWordid : Nat
  allocFixedBlockNum : Nat
  allocVariableBlockNum : Nat
  fixedBlock : Nat → Option (Block (Nat → WordOffset))
  variableBlock : Nat → Option (Block Mem)
  hash : Table WordOffset Nat

def loadBlock (env : Env) (db : WordDb) : BlockType → Nat → WordDb × Bool
  | .typeFixed, blockIdx =>
    if maxBlockNum ≤ blockIdx then (db, false)
    else if env.mmapBlock .typeFixed blockIdx then
      ({ db with
          fixedBlock := Function.update db.fixedBlock blockIdx
            (some { usedBytes := 0, data := fun _ => .pack 0 0 }) }, true)
    else (db, false)
  | .typeVariable, blockIdx =>
    if maxBlockNum ≤ blockIdx then (db, false)
    else if env.mmapBlock .typeVariable blockIdx then
      ({ db with
          variableBlock := Function.update db.variableBlock blockIdx
            (some { usedBytes := 0, data := fun _ => 0 }) }, true)
    else (db, false)

/-- `open_word_db` on files that do not exist yet; `hash_open` calls only
`hash_alloc_data_func`. -/
def openWordDb (md5 : List UInt8 → HashKey) (env : Env) : Option WordDb :=
  let callbacks : Callbacks WordOffset := {
    hashFunc := fun _ => md5 []
    keyEq := fun _ _ => true
    allocData := env.mmapHash }
  match hashOpen callbacks 0 .sorted with
  | none => none
  | some hash =>
    let db : WordDb := {
      lastWordid := 0
      allocFixedBlockNum := 1
      allocVariableBlockNum := 1
      fixedBlock := fun _ => none
      variableBlock := fun _ => none
      hash := hash }
    match loadBlock env db .typeFixed 0 with
    | (_, false) => none
    | (db, true) =>
      match loadBlock env db .typeVariable 0 with
      | (_, false) => none
      | (db, true) => some db

/-- `block_write` on a variable block; `some (_, false)` is its `FAIL`. -/
def variableWrite (db : WordDb) (wordOffset : WordOffset) (data : List UInt8) :
    Option (WordDb × Bool) :=
  match db.variableBlock wordOffset.blockIdx.toNat with
  | none => none
  | some block =>
    if blockDataSize < wordOffset.offset.toNat + data.length then
      some (db, false)
    else
      some ({ db with
        variableBlock :=
          Function.update db.variableBlock wordOffset.blockIdx.toNat
            (some { block with
              data := block.data.write wordOffset.offset.toNat data }) }, true)

/-- `block_write` of one `internal_word_t`. -/
def fixedWrite (db : WordDb) (wordOffset : WordOffset) (internalWord : WordOffset) :
    Option (WordDb × Bool) :=
  match db.fixedBlock wordOffset.blockIdx.toNat with
  | none => none
  | some block =>
    if blockDataSize < wordOffset.offset.toNat + internalWordSize then
      some (db, false)
    else
      some ({ db with
        fixedBlock :=
          Function.update db.fixedBlock wordOffset.blockIdx.toNat
            (some { block with
              data := Function.update block.data wordOffset.offset.toNat
                internalWord }) }, true)

/-- The offset after the last stored string, `none` where it returns `FAIL`. -/
def newVbOffset (env : Env) (db : WordDb) : WordDb × Option WordOffset :=
  let blockIdx := db.allocVariableBlockNum - 1
  let placed := fun (db : WordDb) (offset : Nat) =>
    if blockDataSize - 1 ≤ offset + maxWordLen then
      match loadBlock env db .typeVariable (blockIdx + 1) with
      | (db, false) => (db, none)
      | (db, true) =>
        if maxBlockNum - 1 < blockIdx then (db, none)
        else
          ({ db with allocVariableBlockNum := db.allocVariableBlockNum + 1 },
            some (WordOffset.pack (blockIdx + 1) 0))
    else (db, some (WordOffset.pack blockIdx offset))
  match db.variableBlock blockIdx with
  | some block => placed db block.usedBytes
  | none =>
    match loadBlock env db .typeVariable blockIdx with
    | (db, false) => (db, none)
    | (db, true) => placed db 0

def newFbOffset (env : Env) (db : WordDb) (wordid : Nat) :
    Option (WordDb × Option WordOffset) :=
  let blockIdx := (wordid - 1) / numWordsPerBlock
  let offset := (wordid - 1) % numWordsPerBlock * internalWordSize
  let placed := fun (db : WordDb) (block : Block (Nat → WordOffset)) =>
    ({ db with
        fixedBlock := Function.update db.fixedBlock blockIdx
          (some { block with usedBytes := offset + internalWordSize }) },
      some (WordOffset.pack blockIdx offset))
  if maxBlockNum ≤ blockIdx then none
  else match db.fixedBlock blockIdx with
    | some block => some (placed db block)
    | none =>
      match loadBlock env db .typeFixed blockIdx with
      | (db, false) => some (db, none)
      | (db, true) =>
        match db.fixedBlock blockIdx with
        | none => none
        | some block => some
            (placed { db with allocFixedBlockNum := blockIdx + 1 } block)

def offset2ptrVariable (db : WordDb) (wordOffset : WordOffset) :
    Option (Mem × Nat) :=
  if db.allocVariableBlockNum ≤ wordOffset.blockIdx.toNat then none
  else match db.variableBlock wordOffset.blockIdx.toNat with
    | none => none
    | some block => some (block.data, wordOffset.offset.toNat)

def offset2ptrFixed (db : WordDb) (wordOffset : WordOffset) : Option WordOffset :=
  if db.allocFixedBlockNum ≤ wordOffset.blockIdx.toNat then none
  else match db.fixedBlock wordOffset.blockIdx.toNat with
    | none => none
    | some block => some (block.data wordOffset.offset.toNat)

/-- The string a word offset points to. Stored offsets never give a null
pointer. -/
def stringAt (db : WordDb) (wordOffset : WordOffset) : List UInt8 :=
  match offset2ptrVariable db wordOffset with
  | none => []
  | some (data, offset) => data.cString (blockDataSize - offset) offset

/-- `hash_func`, `hash_keycmp_func` and `hash_alloc_data_func`; `md5` gives the
first four bytes of the digest. -/
def hashCallbacks (md5 : List UInt8 → HashKey) (env : Env) (db : WordDb) :
    Callbacks WordOffset where
  hashFunc := fun key => md5 (stringAt db key)
  keyEq := fun first second => stringAt db first == stringAt db second
  allocData := env.mmapHash

def increaseVariableOffset (db : WordDb) (len : Nat) : Option (WordDb × Bool) :=
  let blockIdx := db.allocVariableBlockNum - 1
  match db.variableBlock blockIdx with
  | none => none
  | some block =>
    let usedBytes := block.usedBytes + len
    some ({ db with
      variableBlock := Function.update db.variableBlock blockIdx
        (some { block with usedBytes := usedBytes }) },
      ¬ blockDataSize < usedBytes)

/-- Whether the last possible block is allocated and used beyond `limit`. -/
def lastBlockFull {Contents : Type} (allocBlockNum : Nat)
    (block : Nat → Option (Block Contents)) (limit : Nat) : Option Bool :=
  if allocBlockNum = maxBlockNum then
    match block (maxBlockNum - 1) with
    | none => none
    | some last => some (decide (limit < last.usedBytes))
  else some false

def checkDbNotFull (db : WordDb) : Option Bool :=
  match lastBlockFull db.allocFixedBlockNum db.fixedBlock
      (blockDataSize - internalWordSize * 3) with
  | none => none
  | some true => some false
  | some false =>
    match lastBlockFull db.allocVariableBlockNum db.variableBlock
        (blockDataSize - maxWordLen * 3) with
    | none => none
    | some full => some (!full)

inductive PutResult where
  | oldRegistered (wordid : Nat)
  | newRegistered (wordOffset : WordOffset)
  | fail

def lexiconIndexPut (md5 : List UInt8 → HashKey) (env : Env) (db : WordDb)
    (string : List UInt8) (wordid : Nat) : Option (WordDb × PutResult) :=
  match newVbOffset env db with
  | (db, none) => some (db, .fail)
  | (db, some wordOffset) =>
    match variableWrite db wordOffset (string ++ [0]) with
    | none => none
    | some (db, false) => some (db, .fail)
    | some (db, true) =>
      match hashAdd (hashCallbacks md5 env db) db.hash wordOffset wordid with
      | none => none
      | some (hash, .success) =>
        match increaseVariableOffset { db with hash := hash }
            (string.length + 1) with
        | none => none
        | some (db, false) => some (db, .fail)
        | some (db, true) => some (db, .newRegistered wordOffset)
      | some (hash, .collision stored) =>
        some ({ db with hash := hash }, .oldRegistered stored)
      | some (hash, .overflow) => some ({ db with hash := hash }, .fail)
      | some (hash, .fail) => some ({ db with hash := hash }, .fail)

inductive WordResult where
  | oldRegistered (wordid : Nat)
  | newRegistered (wordid : Nat)
  | notRegistered
  | fail
  deriving DecidableEq

def lexiconIndexGet (md5 : List UInt8 → HashKey) (env : Env) (db : WordDb)
    (string : List UInt8) : Option (WordDb × WordResult) :=
  match newVbOffset env db with
  | (db, none) => some (db, .fail)
  | (db, some wordOffset) =>
    match variableWrite db wordOffset (string ++ [0]) with
    | none => none
    | some (db, false) => some (db, .fail)
    | some (db, true) =>
      match hashSearch (hashCallbacks md5 env db) db.hash wordOffset with
      | none => none
      | some none => some (db, .notRegistered)
      | some (some wordid) => some (db, .oldRegistered wordid)

/-- `word->string` cut to `MAX_WORD_LEN - 1` bytes. -/
def cutWord (word : List UInt8) : List UInt8 :=
  let string := word.takeWhile (· ≠ 0)
  if maxWordLen ≤ string.length then string.take (maxWordLen - 1) else string

def getNewWordid (md5 : List UInt8 → HashKey) (env : Env) (db : WordDb)
    (word : List UInt8) : Option (WordDb × WordResult) :=
  let string := cutWord word
  if string.length = 0 then some (db, .notRegistered)
  else
    match lexiconIndexPut md5 env db string (db.lastWordid + 1) with
    | none => none
    | some (db, .oldRegistered wordid) => some (db, .oldRegistered wordid)
    | some (db, .fail) => some (db, .fail)
    | some (db, .newRegistered wordOffset) =>
      match checkDbNotFull db with
      | none => none
      | some false => some (db, .fail)
      | some true =>
        let db := { db with lastWordid := db.lastWordid + 1 }
        let wordid := db.lastWordid
        match newFbOffset env db wordid with
        | none => none
        | some (db, none) => some (db, .fail)
        | some (db, some fbOffset) =>
          match fixedWrite db fbOffset wordOffset with
          | none => none
          | some (db, false) => some (db, .fail)
          | some (db, true) => some (db, .newRegistered wordid)

def getWordid (md5 : List UInt8 → HashKey) (env : Env) (db : WordDb)
    (word : List UInt8) : Option (WordDb × WordResult) :=
  let string := cutWord word
  if string.length = 0 then some (db, .notRegistered)
  else lexiconIndexGet md5 env db string

inductive ByIdResult where
  | success (string : List UInt8)
  | notRegistered
  | fail
  deriving DecidableEq

def getWordByWordid (db : WordDb) (wordid : Nat) : ByIdResult :=
  if wordid = 0 ∨ db.lastWordid < wordid then .notRegistered
  else
    let fbOffset := WordOffset.pack ((wordid - 1) / numWordsPerBlock)
      ((wordid - 1) % numWordsPerBlock * internalWordSize)
    match offset2ptrFixed db fbOffset with
    | none => .fail
    | some internalWord =>
      match offset2ptrVariable db internalWord with
      | none => .fail
      | some _ => .success (stringAt db internalWord)

end Wisebot.Lexicon
