import Mathlib.Data.List.TakeWhile
import Wisebot.Lexicon.WordDb
import Wisebot.Hash.Map

namespace Wisebot.Lexicon

open Wisebot.Lib Wisebot.Hash

variable {db after : WordDb} {string : List UInt8} {env : Env} {wordOffset : WordOffset}

/-! Strings in the variable blocks: the probe string every call writes behind
the last stored one leaves the stored strings alone. -/

theorem WordOffset.pack_blockIdx (offset : Nat) {blockIdx : Nat} (bound : blockIdx < 256) :
    (WordOffset.pack blockIdx offset).blockIdx.toNat = blockIdx := by
  simp only [WordOffset.pack, BitVec.toNat_ofNat]
  exact Nat.mod_eq_of_lt bound

theorem WordOffset.pack_offset (blockIdx : Nat) {offset : Nat}
    (bound : offset < blockDataSize) :
    (WordOffset.pack blockIdx offset).offset.toNat = offset := by
  simp only [WordOffset.pack, BitVec.toNat_ofNat]
  exact Nat.mod_eq_of_lt (bound.trans (by decide))

structure StorageInv (db : WordDb) : Prop where
  alloc_pos : 1 ≤ db.allocVariableBlockNum
  alloc_le : db.allocVariableBlockNum ≤ maxBlockNum
  mapped : ∀ blockIdx < db.allocVariableBlockNum, ∃ block,
    db.variableBlock blockIdx = some block ∧ block.usedBytes ≤ blockDataSize

structure Stored (db : WordDb) (key : WordOffset) (string : List UInt8) :
    Prop where
  allocated : key.blockIdx.toNat < db.allocVariableBlockNum
  held : ∃ block, db.variableBlock key.blockIdx.toNat = some block ∧
    block.data.HoldsString key.offset.toNat string ∧
    key.offset.toNat + string.length + 1 ≤ block.usedBytes

theorem stringAt_of_holds {key : WordOffset} {block : Block Mem}
    (allocated : key.blockIdx.toNat < db.allocVariableBlockNum)
    (mapped : db.variableBlock key.blockIdx.toNat = some block)
    (holds : block.data.HoldsString key.offset.toNat string)
    (fits : key.offset.toNat + string.length < blockDataSize) :
    stringAt db key = string := by
  simp only [stringAt, offset2ptrVariable, if_neg (Nat.not_le.mpr allocated),
    mapped]
  exact holds.cString (by omega)

theorem Stored.stringAt {key : WordOffset} (stored : Stored db key string) (inv : StorageInv db) :
    stringAt db key = string := by
  obtain ⟨block, mapped, holds, used⟩ := stored.held
  obtain ⟨other, otherMapped, usedBound⟩ := inv.mapped _ stored.allocated
  obtain rfl := Option.some.inj (mapped.symm.trans otherMapped)
  exact stringAt_of_holds stored.allocated mapped holds (by omega)

theorem Stored.congr {other : WordDb} {key : WordOffset} (stored : Stored db key string)
    (sameAlloc : other.allocVariableBlockNum = db.allocVariableBlockNum)
    (sameBlocks : other.variableBlock = db.variableBlock) :
    Stored other key string where
  allocated := sameAlloc ▸ stored.allocated
  held := sameBlocks ▸ stored.held

/-! `new_vb_offset` and the write of the probe string. -/

/-- What `new_vb_offset` leaves when it succeeds. -/
structure Placed (db placed : WordDb) (wordOffset : WordOffset) : Prop where
  storage : StorageInv placed
  kept : ∀ key string, Stored db key string → Stored placed key string
  lastWordid_eq : placed.lastWordid = db.lastWordid
  allocFixed_eq : placed.allocFixedBlockNum = db.allocFixedBlockNum
  fixedBlock_eq : placed.fixedBlock = db.fixedBlock
  hash_eq : placed.hash = db.hash
  last : wordOffset.blockIdx.toNat + 1 = placed.allocVariableBlockNum
  room : wordOffset.offset.toNat + maxWordLen < blockDataSize - 1
  used : ∃ block, placed.variableBlock wordOffset.blockIdx.toNat = some block ∧
    block.usedBytes = wordOffset.offset.toNat
  source : wordOffset.offset.toNat = 0 ∨
    placed.allocVariableBlockNum = db.allocVariableBlockNum ∧
    ∃ block, db.variableBlock wordOffset.blockIdx.toNat = some block ∧
      block.usedBytes = wordOffset.offset.toNat

theorem newVbOffset_cases (env : Env) (inv : StorageInv db) :
    ∃ block, db.variableBlock (db.allocVariableBlockNum - 1) = some block ∧
      block.usedBytes ≤ blockDataSize ∧
      (block.usedBytes + maxWordLen < blockDataSize - 1 ∧
        newVbOffset env db = (db, some (WordOffset.pack
          (db.allocVariableBlockNum - 1) block.usedBytes)) ∨
      blockDataSize - 1 ≤ block.usedBytes + maxWordLen ∧
        (db.allocVariableBlockNum < maxBlockNum ∧
          env.mmapBlock .typeVariable db.allocVariableBlockNum = true ∧
          newVbOffset env db = ({ db with
            allocVariableBlockNum := db.allocVariableBlockNum + 1
            variableBlock := Function.update db.variableBlock
              db.allocVariableBlockNum
              (some { usedBytes := 0, data := fun _ => 0 }) },
            some (WordOffset.pack db.allocVariableBlockNum 0)) ∨
        (db.allocVariableBlockNum = maxBlockNum ∨
          env.mmapBlock .typeVariable db.allocVariableBlockNum = false) ∧
          newVbOffset env db = (db, none))) := by
  have positive := inv.alloc_pos
  have small := inv.alloc_le
  obtain ⟨block, mapped, usedBound⟩ :=
    inv.mapped (db.allocVariableBlockNum - 1) (by omega)
  have next : db.allocVariableBlockNum - 1 + 1 = db.allocVariableBlockNum := by
    omega
  refine ⟨block, mapped, usedBound, ?_⟩
  simp only [newVbOffset, mapped, next]
  rcases Nat.lt_or_ge (block.usedBytes + maxWordLen) (blockDataSize - 1) with
    room | full
  · rw [if_neg (Nat.not_le.mpr room)]
    exact .inl ⟨room, rfl⟩
  · rw [if_pos full]
    refine .inr ⟨full, ?_⟩
    rcases Nat.lt_or_ge db.allocVariableBlockNum maxBlockNum with within | beyond
    · simp only [loadBlock, if_neg (Nat.not_le.mpr within)]
      cases mappable : env.mmapBlock .typeVariable db.allocVariableBlockNum with
      | false => exact .inr ⟨.inr rfl, rfl⟩
      | true =>
        refine .inl ⟨within, rfl, ?_⟩
        have fits : ¬ maxBlockNum - 1 < db.allocVariableBlockNum - 1 := by omega
        simp only [if_true, if_neg fits]
    · simp only [loadBlock, if_pos beyond, and_true]
      exact .inr (.inl (by omega))

theorem newVbOffset_placed {placed : WordDb} (inv : StorageInv db)
    (result : newVbOffset env db = (placed, some wordOffset)) :
    Placed db placed wordOffset := by
  have positive := inv.alloc_pos
  have small : db.allocVariableBlockNum ≤ 254 := inv.alloc_le
  obtain ⟨block, mapped, usedBound, ⟨room, same⟩ | ⟨full,
    ⟨more, _, rolled⟩ | ⟨_, failed⟩⟩⟩ := newVbOffset_cases env inv
  · cases same.symm.trans result
    have index := WordOffset.pack_blockIdx block.usedBytes
      (show db.allocVariableBlockNum - 1 < 256 by omega)
    have offset := WordOffset.pack_offset (db.allocVariableBlockNum - 1)
      (show block.usedBytes < blockDataSize by omega)
    have used : ∃ other, db.variableBlock (WordOffset.pack
        (db.allocVariableBlockNum - 1) block.usedBytes).blockIdx.toNat =
          some other ∧ other.usedBytes = (WordOffset.pack
            (db.allocVariableBlockNum - 1) block.usedBytes).offset.toNat := by
      rw [index, offset]
      exact ⟨block, mapped, rfl⟩
    refine ⟨inv, fun _ _ stored => stored, rfl, rfl, rfl, rfl, ?_, ?_, used,
      .inr ⟨rfl, used⟩⟩
    · rw [index]
      omega
    · rwa [offset]
  · cases rolled.symm.trans result
    have index := WordOffset.pack_blockIdx 0
      (show db.allocVariableBlockNum < 256 by omega)
    have fresh : ∀ blockIdx < db.allocVariableBlockNum,
        blockIdx ≠ db.allocVariableBlockNum :=
      fun blockIdx lower => Nat.ne_of_lt lower
    have offset := WordOffset.pack_offset db.allocVariableBlockNum
      (show 0 < blockDataSize by decide)
    refine ⟨⟨Nat.le_add_left _ _, more, ?_⟩, ?_, rfl, rfl, rfl, rfl, ?_, ?_,
      ⟨{ usedBytes := 0, data := fun _ => 0 }, ?_, offset.symm⟩, .inl offset⟩
    · intro blockIdx lower
      rcases Nat.lt_succ_iff_lt_or_eq.mp lower with older | rfl
      · obtain ⟨other, otherMapped, bound⟩ := inv.mapped blockIdx older
        exact ⟨other, by simp only [Function.update_of_ne (fresh _ older),
          otherMapped], bound⟩
      · exact ⟨_, Function.update_self .., Nat.zero_le _⟩
    · intro key string stored
      obtain ⟨other, otherMapped, holds, bound⟩ := stored.held
      refine ⟨Nat.lt_succ_of_lt stored.allocated, other, ?_, holds, bound⟩
      simp only [Function.update_of_ne (fresh _ stored.allocated), otherMapped]
    · rw [index]
    · rw [offset]
      decide
    · rw [index]
      exact Function.update_self ..
  · cases failed.symm.trans result

/-- The state in which the index is searched: `string` stands at `wordOffset`,
behind the used bytes of the last block. -/
structure Probed (db probed : WordDb) (wordOffset : WordOffset)
    (string : List UInt8) : Prop extends Placed db probed wordOffset where
  holds : ∃ block, probed.variableBlock wordOffset.blockIdx.toNat = some block ∧
    block.data.HoldsString wordOffset.offset.toNat string

theorem Placed.variableWrite {placed : WordDb} (place : Placed db placed wordOffset)
    (short : string.length < maxWordLen) (nonzero : ∀ byte ∈ string, byte ≠ 0) :
    ∃ probed, variableWrite placed wordOffset (string ++ [0]) =
        some (probed, true) ∧ Probed db probed wordOffset string ∧
      probed.allocVariableBlockNum = placed.allocVariableBlockNum := by
  obtain ⟨block, mapped, used⟩ := place.used
  have room := place.room
  have bound := place.last
  have fits : ¬ blockDataSize < wordOffset.offset.toNat +
      (string ++ [0]).length := by
    simp only [List.length_append, List.length_singleton]
    omega
  refine ⟨{ placed with
    variableBlock := Function.update placed.variableBlock
      wordOffset.blockIdx.toNat (some { block with
        data := block.data.write wordOffset.offset.toNat (string ++ [0]) }) },
    by simp only [Lexicon.variableWrite, mapped, if_neg fits], ?_, rfl⟩
  refine { place with
    storage := ?_
    kept := ?_
    used := ?_
    holds := ?_ }
  · refine ⟨place.storage.alloc_pos, place.storage.alloc_le, ?_⟩
    intro blockIdx lower
    obtain ⟨other, otherMapped, otherBound⟩ := place.storage.mapped blockIdx lower
    by_cases same : blockIdx = wordOffset.blockIdx.toNat
    · subst same
      obtain rfl := Option.some.inj (mapped.symm.trans otherMapped)
      exact ⟨_, Function.update_self .., otherBound⟩
    · exact ⟨other, by simp only [Function.update_of_ne same, otherMapped],
        otherBound⟩
  · intro key other stored
    have stays := place.kept key other stored
    obtain ⟨owner, ownerMapped, held, below⟩ := stays.held
    refine ⟨stays.allocated, ?_⟩
    by_cases same : key.blockIdx.toNat = wordOffset.blockIdx.toNat
    · rw [same] at ownerMapped ⊢
      obtain rfl := Option.some.inj (mapped.symm.trans ownerMapped)
      exact ⟨_, Function.update_self .., held.frame (.inl (by omega)), below⟩
    · exact ⟨owner, by simp only [Function.update_of_ne same, ownerMapped], held,
        below⟩
  · exact ⟨_, Function.update_self .., used⟩
  · exact ⟨_, Function.update_self .., Mem.HoldsString.of_write _ _ nonzero⟩

theorem Probed.stringAt {probed : WordDb} (probe : Probed db probed wordOffset string)
    (short : string.length < maxWordLen) :
    stringAt probed wordOffset = string := by
  obtain ⟨block, mapped, holds⟩ := probe.holds
  have room := probe.room
  have last := probe.last
  exact stringAt_of_holds (by omega) mapped holds (by omega)

/-- The state after `increase_block_offset`: the probe string is stored. -/
structure Grown (db grown : WordDb) (hash : Table WordOffset Nat)
    (wordOffset : WordOffset) (string : List UInt8) : Prop where
  storage : StorageInv grown
  kept : ∀ key other, Stored db key other → Stored grown key other
  stored : Stored grown wordOffset string
  lastWordid_eq : grown.lastWordid = db.lastWordid
  allocFixed_eq : grown.allocFixedBlockNum = db.allocFixedBlockNum
  fixedBlock_eq : grown.fixedBlock = db.fixedBlock
  hash_eq : grown.hash = hash
  last : wordOffset.blockIdx.toNat + 1 = grown.allocVariableBlockNum
  used : ∃ block, grown.variableBlock wordOffset.blockIdx.toNat = some block ∧
    block.usedBytes = wordOffset.offset.toNat + string.length + 1
  source : wordOffset.offset.toNat = 0 ∨
    grown.allocVariableBlockNum = db.allocVariableBlockNum ∧
    ∃ block, db.variableBlock wordOffset.blockIdx.toNat = some block ∧
      block.usedBytes = wordOffset.offset.toNat

theorem Probed.increase {probed : WordDb} (probe : Probed db probed wordOffset string)
    (short : string.length < maxWordLen) (hash : Table WordOffset Nat) :
    ∃ grown, increaseVariableOffset { probed with hash := hash }
        (string.length + 1) = some (grown, true) ∧
      Grown db grown hash wordOffset string := by
  obtain ⟨block, mapped, holds⟩ := probe.holds
  obtain ⟨sameBlock, sameMapped, used⟩ := probe.used
  obtain rfl := Option.some.inj (mapped.symm.trans sameMapped)
  have room := probe.room
  have last := probe.last
  have index : probed.allocVariableBlockNum - 1 = wordOffset.blockIdx.toNat := by
    omega
  have fits : ¬ blockDataSize < block.usedBytes + (string.length + 1) := by omega
  refine ⟨{ probed with
    hash := hash
    variableBlock := Function.update probed.variableBlock
      wordOffset.blockIdx.toNat (some { block with
        usedBytes := block.usedBytes + (string.length + 1) }) }, ?_, ?_⟩
  · simp only [increaseVariableOffset, index, mapped, fits, not_false_eq_true,
      decide_true]
  refine {
    storage := ?_
    kept := ?_
    stored := ?_
    lastWordid_eq := probe.lastWordid_eq
    allocFixed_eq := probe.allocFixed_eq
    fixedBlock_eq := probe.fixedBlock_eq
    hash_eq := rfl
    last := last
    used := ?_
    source := probe.source }
  · refine ⟨probe.storage.alloc_pos, probe.storage.alloc_le, ?_⟩
    intro blockIdx lower
    obtain ⟨other, otherMapped, otherBound⟩ := probe.storage.mapped blockIdx lower
    by_cases same : blockIdx = wordOffset.blockIdx.toNat
    · subst same
      exact ⟨_, Function.update_self .., Nat.le_of_not_lt fits⟩
    · exact ⟨other, by simp only [Function.update_of_ne same, otherMapped],
        otherBound⟩
  · intro key other stored
    have stays := probe.kept key other stored
    obtain ⟨owner, ownerMapped, held, below⟩ := stays.held
    refine ⟨stays.allocated, ?_⟩
    by_cases same : key.blockIdx.toNat = wordOffset.blockIdx.toNat
    · rw [same] at ownerMapped ⊢
      obtain rfl := Option.some.inj (mapped.symm.trans ownerMapped)
      exact ⟨_, Function.update_self .., held, below.trans (Nat.le_add_right _ _)⟩
    · exact ⟨owner, by simp only [Function.update_of_ne same, ownerMapped], held,
        below⟩
  · exact ⟨by simp only; omega, _, Function.update_self .., holds,
      by simp only; omega⟩
  · exact ⟨_, Function.update_self .., by simp only; omega⟩

/-! `lexicon_index_put` and `lexicon_index_get`. -/

inductive PutCase (md5 : List UInt8 → HashKey) (env : Env) (db : WordDb)
    (string : List UInt8) (wordid : Nat) : WordDb → PutResult → Prop where
  | unplaced (refused : newVbOffset env db = (db, none)) :
      PutCase md5 env db string wordid db .fail
  | stored {probed grown wordOffset hash}
      (probe : Probed db probed wordOffset string)
      (added : hashAdd (hashCallbacks md5 env probed) db.hash wordOffset wordid =
        some (hash, .success))
      (grew : Grown db grown hash wordOffset string) :
      PutCase md5 env db string wordid grown (.newRegistered wordOffset)
  | old {probed wordOffset hash wordid'}
      (probe : Probed db probed wordOffset string)
      (added : hashAdd (hashCallbacks md5 env probed) db.hash wordOffset wordid =
        some (hash, .collision wordid')) :
      PutCase md5 env db string wordid { probed with hash := hash }
        (.oldRegistered wordid')
  | refused {probed wordOffset hash reply}
      (probe : Probed db probed wordOffset string)
      (added : hashAdd (hashCallbacks md5 env probed) db.hash wordOffset wordid =
        some (hash, reply))
      (refusal : reply = .overflow ∨ reply = .fail) :
      PutCase md5 env db string wordid { probed with hash := hash } .fail

theorem newVbOffset_none (inv : StorageInv db) (result : newVbOffset env db = (after, none)) :
    after = db := by
  obtain ⟨_, _, _, ⟨_, same⟩ | ⟨_, ⟨_, _, rolled⟩ | ⟨_, failed⟩⟩⟩ :=
    newVbOffset_cases env inv
  · cases same.symm.trans result
  · cases rolled.symm.trans result
  · cases failed.symm.trans result
    rfl

theorem lexiconIndexPut_cases {md5 : List UInt8 → HashKey} {wordid : Nat} {reply : PutResult}
    (inv : StorageInv db) (short : string.length < maxWordLen) (nonzero : ∀ byte ∈ string, byte ≠ 0)
    (result : lexiconIndexPut md5 env db string wordid = some (after, reply)) :
    PutCase md5 env db string wordid after reply := by
  unfold lexiconIndexPut at result
  split at result
  case h_1 placed refused =>
    obtain rfl := newVbOffset_none inv refused
    cases result
    exact .unplaced refused
  case h_2 placed wordOffset found =>
    have place := newVbOffset_placed inv found
    obtain ⟨probed, written, probe, _⟩ := place.variableWrite short nonzero
    rw [written] at result
    simp only [probe.hash_eq] at result
    split at result
    case h_1 => cases result
    case h_2 hash added =>
      obtain ⟨grown, increased, grew⟩ := probe.increase short hash
      rw [increased] at result
      cases result
      exact .stored probe added grew
    case h_3 hash wordid' added =>
      cases result
      exact .old probe added
    case h_4 hash added =>
      cases result
      exact .refused probe added (.inl rfl)
    case h_5 hash added =>
      cases result
      exact .refused probe added (.inr rfl)

inductive GetCase (md5 : List UInt8 → HashKey) (env : Env) (db : WordDb)
    (string : List UInt8) : WordDb → WordResult → Prop where
  | unplaced (refused : newVbOffset env db = (db, none)) :
      GetCase md5 env db string db .fail
  | missing {probed wordOffset}
      (probe : Probed db probed wordOffset string)
      (searched : hashSearch (hashCallbacks md5 env probed) db.hash wordOffset =
        some none) :
      GetCase md5 env db string probed .notRegistered
  | found {probed wordOffset wordid}
      (probe : Probed db probed wordOffset string)
      (searched : hashSearch (hashCallbacks md5 env probed) db.hash wordOffset =
        some (some wordid)) :
      GetCase md5 env db string probed (.oldRegistered wordid)

theorem lexiconIndexGet_cases {md5 : List UInt8 → HashKey} {reply : WordResult}
    (inv : StorageInv db) (short : string.length < maxWordLen) (nonzero : ∀ byte ∈ string, byte ≠ 0)
    (result : lexiconIndexGet md5 env db string = some (after, reply)) :
    GetCase md5 env db string after reply := by
  unfold lexiconIndexGet at result
  split at result
  case h_1 placed refused =>
    obtain rfl := newVbOffset_none inv refused
    cases result
    exact .unplaced refused
  case h_2 placed wordOffset found =>
    have place := newVbOffset_placed inv found
    obtain ⟨probed, written, probe, _⟩ := place.variableWrite short nonzero
    rw [written] at result
    simp only [probe.hash_eq] at result
    split at result
    case h_1 => cases result
    case h_2 searched =>
      cases result
      exact .missing probe searched
    case h_3 wordid searched =>
      cases result
      exact .found probe searched

theorem cutWord_short (word : List UInt8) : (cutWord word).length < maxWordLen := by
  unfold cutWord
  simp only
  split
  · rw [List.length_take]
    exact Nat.lt_of_le_of_lt (Nat.min_le_left _ _) (by decide)
  · omega

theorem cutWord_nonzero (word : List UInt8) :
    ∀ byte ∈ cutWord word, byte ≠ 0 := by
  intro byte member
  have inside : byte ∈ word.takeWhile (· ≠ 0) := by
    unfold cutWord at member
    simp only at member
    split at member
    · exact List.mem_of_mem_take member
    · exact member
  simpa using List.mem_takeWhile_imp inside

/-! Every way `get_new_wordid` can end. -/

theorem lexiconIndexPut_cutWord {md5 : List UInt8 → HashKey} {put : WordDb} {word : List UInt8}
    {wordid : Nat} {reply : PutResult} (inv : StorageInv db)
    (found : lexiconIndexPut md5 env db (cutWord word) wordid =
      some (put, reply)) :
    PutCase md5 env db (cutWord word) wordid put reply :=
  lexiconIndexPut_cases inv (cutWord_short word) (cutWord_nonzero word) found

inductive RegisterCase (md5 : List UInt8 → HashKey) (env : Env) (db : WordDb)
    (word : List UInt8) : WordDb → WordResult → Prop where
  | empty (nothing : cutWord word = []) :
      RegisterCase md5 env db word db .notRegistered
  | old {put wordid} (proper : cutWord word ≠ [])
      (found : lexiconIndexPut md5 env db (cutWord word) (db.lastWordid + 1) =
        some (put, .oldRegistered wordid)) :
      RegisterCase md5 env db word put (.oldRegistered wordid)
  | refused {put} (proper : cutWord word ≠ [])
      (found : lexiconIndexPut md5 env db (cutWord word) (db.lastWordid + 1) =
        some (put, .fail)) :
      RegisterCase md5 env db word put .fail
  | full {put wordOffset} (proper : cutWord word ≠ [])
      (found : lexiconIndexPut md5 env db (cutWord word) (db.lastWordid + 1) =
        some (put, .newRegistered wordOffset))
      (checked : checkDbNotFull put = some false) :
      RegisterCase md5 env db word put .fail
  | unmapped {put wordOffset placed} (proper : cutWord word ≠ [])
      (found : lexiconIndexPut md5 env db (cutWord word) (db.lastWordid + 1) =
        some (put, .newRegistered wordOffset))
      (checked : checkDbNotFull put = some true)
      (refusal : newFbOffset env { put with lastWordid := put.lastWordid + 1 }
        (put.lastWordid + 1) = some (placed, none)) :
      RegisterCase md5 env db word placed .fail
  | written {put wordOffset placed fbOffset after success}
      (proper : cutWord word ≠ [])
      (found : lexiconIndexPut md5 env db (cutWord word) (db.lastWordid + 1) =
        some (put, .newRegistered wordOffset))
      (checked : checkDbNotFull put = some true)
      (place : newFbOffset env { put with lastWordid := put.lastWordid + 1 }
        (put.lastWordid + 1) = some (placed, some fbOffset))
      (write : fixedWrite placed fbOffset wordOffset = some (after, success)) :
      RegisterCase md5 env db word after
        (if success then .newRegistered (put.lastWordid + 1) else .fail)

theorem getNewWordid_cases {md5 : List UInt8 → HashKey} {word : List UInt8} {result : WordResult}
    (ran : getNewWordid md5 env db word = some (after, result)) :
    RegisterCase md5 env db word after result := by
  unfold getNewWordid at ran
  simp only at ran
  split at ran
  case isTrue empty =>
    cases ran
    exact .empty (List.length_eq_zero_iff.mp empty)
  case isFalse nonempty =>
    have proper : cutWord word ≠ [] := by
      rwa [← List.length_eq_zero_iff.ne]
    split at ran
    case h_1 => cases ran
    case h_2 put wordid found =>
      cases ran
      exact .old proper found
    case h_3 put found =>
      cases ran
      exact .refused proper found
    case h_4 put wordOffset found =>
      split at ran
      case h_1 => cases ran
      case h_2 checked =>
        cases ran
        exact .full proper found checked
      case h_3 checked =>
        split at ran
        case h_1 => cases ran
        case h_2 placed refusal =>
          cases ran
          exact .unmapped proper found checked refusal
        case h_3 placed fbOffset place =>
          split at ran
          case h_1 => cases ran
          case h_2 final write =>
            cases ran
            exact .written proper found checked place write
          case h_3 final write =>
            cases ran
            exact .written proper found checked place write

end Wisebot.Lexicon
