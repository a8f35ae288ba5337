import Wisebot.Lexicon.Storage

namespace Wisebot.Lexicon

open Wisebot.Lib Wisebot.Hash

/-! The hash index holds the registered words under their ids. -/

theorem hashCallbacks_laws (md5 : List UInt8 → HashKey) (env : Env) (db : WordDb) :
    KeyLaws (hashCallbacks md5 env db) :=
  .of_strings (stringAt db) (fun _ => rfl) fun _ _ => rfl

def slotEntry (db : WordDb) (slot : Slot WordOffset Nat) : List UInt8 × Nat :=
  (stringAt db slot.key, slot.data)

structure Indexed (md5 : List UInt8 → HashKey) (db : WordDb)
    (words : List (List UInt8)) : Prop where
  storage : StorageInv db
  formed : WellFormed db.hash
  stored : ∀ slot ∈ allSlots db.hash, Stored db slot.key (stringAt db slot.key)
  hashed : ∀ slot ∈ allSlots db.hash, slot.hashkey = md5 (stringAt db slot.key)
  entries : ((allSlots db.hash).map (slotEntry db)).Perm (words.zipIdx 1)
  nodup : words.Nodup

section Indexed

variable {md5 : List UInt8 → HashKey} {env : Env} {db other : WordDb}
  {words : List (List UInt8)}

theorem Indexed.stringAt_eq (indexed : Indexed md5 db words)
    (storage : StorageInv other)
    (kept : ∀ key string, Stored db key string → Stored other key string)
    {slot : Slot WordOffset Nat} (member : slot ∈ allSlots db.hash) :
    stringAt other slot.key = stringAt db slot.key :=
  (kept _ _ (indexed.stored slot member)).stringAt storage

theorem Indexed.transfer (indexed : Indexed md5 db words)
    (storage : StorageInv other)
    (kept : ∀ key string, Stored db key string → Stored other key string)
    (sameHash : other.hash = db.hash) : Indexed md5 other words := by
  have same : ∀ slot ∈ allSlots db.hash,
      stringAt other slot.key = stringAt db slot.key :=
    fun slot member => indexed.stringAt_eq storage kept member
  refine ⟨storage, sameHash ▸ indexed.formed, ?_, ?_, ?_, indexed.nodup⟩
  · intro slot member
    rw [sameHash] at member
    rw [same slot member]
    exact kept _ _ (indexed.stored slot member)
  · intro slot member
    rw [sameHash] at member
    rw [same slot member]
    exact indexed.hashed slot member
  · rw [sameHash]
    have entriesSame : (allSlots db.hash).map (slotEntry other) =
        (allSlots db.hash).map (slotEntry db) := by
      apply List.map_congr_left
      intro slot member
      simp only [slotEntry, same slot member]
    rw [entriesSame]
    exact indexed.entries

theorem Indexed.strings_perm (indexed : Indexed md5 db words) :
    ((allSlots db.hash).map fun slot => stringAt db slot.key).Perm words := by
  have perm := indexed.entries.map Prod.fst
  rw [List.zipIdx_map_fst, List.map_map] at perm
  exact perm

theorem Indexed.keyed (indexed : Indexed md5 db words) (env : Env) :
    Keyed (hashCallbacks md5 env db) (allSlots db.hash) where
  hashkey_eq := indexed.hashed
  distinct := by
    have nodup := indexed.strings_perm.nodup_iff.mpr indexed.nodup
    refine (List.pairwise_map.mp nodup).imp ?_
    intro first second differ
    simpa [hashCallbacks] using differ

theorem Indexed.slot_of_word (indexed : Indexed md5 db words) {index : Nat}
    {word : List UInt8} (at_index : words[index]? = some word) :
    ∃ slot ∈ allSlots db.hash, stringAt db slot.key = word ∧
      slot.data = index + 1 := by
  have member : (word, index + 1) ∈ words.zipIdx 1 := by
    rw [Nat.add_comm]
    exact List.mk_add_mem_zipIdx_iff_getElem?.mpr at_index
  obtain ⟨slot, inside, equal⟩ :=
    List.mem_map.mp (indexed.entries.mem_iff.mpr member)
  obtain ⟨sameWord, sameId⟩ := Prod.mk.inj equal
  exact ⟨slot, inside, sameWord, sameId⟩

theorem Indexed.word_of_slot (indexed : Indexed md5 db words)
    {slot : Slot WordOffset Nat} (member : slot ∈ allSlots db.hash) :
    ∃ index, words[index]? = some (stringAt db slot.key) ∧
      slot.data = index + 1 := by
  have inside := indexed.entries.mem_iff.mp
    (List.mem_map_of_mem (f := slotEntry db) member)
  obtain ⟨lower, at_index⟩ := List.mk_mem_zipIdx_iff_le_and_getElem?_sub.mp inside
  exact ⟨slot.data - 1, at_index, by omega⟩

theorem getElem?_of_idxOf? {string : List UInt8} {index : Nat}
    (position : words.idxOf? string = some index) :
    words[index]? = some string := by
  obtain ⟨bound, same, _⟩ := List.idxOf?_eq_some_iff.mp position
  rw [List.getElem?_eq_getElem bound, same]

theorem Indexed.probed (indexed : Indexed md5 db words) {probed : WordDb}
    {wordOffset : WordOffset} {string : List UInt8}
    (probe : Probed db probed wordOffset string) : Indexed md5 probed words :=
  indexed.transfer probe.storage probe.kept probe.hash_eq

theorem Indexed.present (indexed : Indexed md5 db words) {probed : WordDb}
    {wordOffset : WordOffset} {string : List UInt8} {index : Nat}
    (probe : Probed db probed wordOffset string)
    (short : string.length < maxWordLen) (at_index : words[index]? = some string)
    (env : Env) :
    ∃ slot ∈ allSlots probed.hash,
      (hashCallbacks md5 env probed).keyEq slot.key wordOffset = true ∧
      slot.data = index + 1 := by
  obtain ⟨slot, member, same, data⟩ :=
    (indexed.probed probe).slot_of_word at_index
  refine ⟨slot, member, ?_, data⟩
  simp only [hashCallbacks, beq_iff_eq]
  rw [same, probe.stringAt short]

theorem Indexed.absent (indexed : Indexed md5 db words) {probed : WordDb}
    {wordOffset : WordOffset} {string : List UInt8}
    (probe : Probed db probed wordOffset string)
    (short : string.length < maxWordLen) (fresh : string ∉ words) (env : Env) :
    Absent (hashCallbacks md5 env probed) probed.hash wordOffset := by
  intro slot member
  obtain ⟨index, at_index, _⟩ := (indexed.probed probe).word_of_slot member
  simp only [hashCallbacks, beq_eq_false_iff_ne]
  rw [probe.stringAt short]
  intro same
  rw [same] at at_index
  exact fresh (List.mem_of_getElem? at_index)

theorem Indexed.search (indexed : Indexed md5 db words) {probed : WordDb}
    {wordOffset : WordOffset} {string : List UInt8}
    (probe : Probed db probed wordOffset string)
    (short : string.length < maxWordLen) (env : Env) :
    hashSearch (hashCallbacks md5 env probed) db.hash wordOffset =
      some ((words.idxOf? string).map (· + 1)) := by
  have laws := hashCallbacks_laws md5 env probed
  have inProbed := indexed.probed probe
  rw [← probe.hash_eq]
  cases position : words.idxOf? string with
  | none =>
    have fresh : string ∉ words := List.idxOf?_eq_none_iff.mp position
    exact hashSearch_absent inProbed.formed
      (indexed.absent probe short fresh env)
  | some index =>
    have at_index := getElem?_of_idxOf? position
    obtain ⟨slot, member, equal, data⟩ :=
      indexed.present probe short at_index env
    rw [hashSearch_present laws inProbed.formed (inProbed.keyed env) member equal,
      data]
    rfl

theorem Indexed.add_old (indexed : Indexed md5 db words) {probed : WordDb}
    {wordOffset : WordOffset} {string : List UInt8} {index wordid : Nat}
    (probe : Probed db probed wordOffset string)
    (short : string.length < maxWordLen)
    (position : words.idxOf? string = some index) (newer : index + 1 ≠ wordid)
    (env : Env) :
    hashAdd (hashCallbacks md5 env probed) db.hash wordOffset wordid =
      some (db.hash, .collision (index + 1)) := by
  have inProbed := indexed.probed probe
  obtain ⟨slot, member, equal, data⟩ :=
    indexed.present probe short (getElem?_of_idxOf? position) env
  rw [← probe.hash_eq]
  unfold hashAdd
  rw [hashAddFuel_present (hashCallbacks_laws md5 env probed) _ wordid
    inProbed.formed (inProbed.keyed env) member equal, data, if_neg newer]

theorem Indexed.add_new (indexed : Indexed md5 db words) {probed : WordDb}
    {wordOffset : WordOffset} {string : List UInt8} {wordid : Nat}
    {hash : Table WordOffset Nat} {reply : AddResult Nat}
    (probe : Probed db probed wordOffset string)
    (short : string.length < maxWordLen) (fresh : string ∉ words)
    (added : hashAdd (hashCallbacks md5 env probed) db.hash wordOffset wordid =
      some (hash, reply)) :
    reply = .overflow ∨ reply = .success ∧
      Inserted (hashCallbacks md5 env probed) db.hash wordOffset wordid hash := by
  have inProbed := indexed.probed probe
  have absent := indexed.absent probe short fresh env
  rw [← probe.hash_eq] at added ⊢
  rcases hashAddFuel_spec (hashCallbacks_laws md5 env probed) inProbed.formed
    (inProbed.keyed env) added with ⟨slot, member, equal, _⟩ | ⟨_, outcome⟩
  · rw [absent slot member] at equal
    cases equal
  · exact outcome

theorem Indexed.grown (indexed : Indexed md5 db words) {probed grown : WordDb}
    {wordOffset : WordOffset} {string : List UInt8}
    {hash : Table WordOffset Nat} (probe : Probed db probed wordOffset string)
    (short : string.length < maxWordLen) (fresh : string ∉ words)
    (inserted : Inserted (hashCallbacks md5 env probed) db.hash wordOffset
      (words.length + 1) hash)
    (grew : Grown db grown hash wordOffset string) :
    Indexed md5 grown (words ++ [string]) := by
  have same : ∀ slot ∈ allSlots db.hash,
      stringAt grown slot.key = stringAt db slot.key :=
    fun slot member => indexed.stringAt_eq grew.storage grew.kept member
  have newString := grew.stored.stringAt grew.storage
  have slots := inserted.slots
  rw [← grew.hash_eq] at slots
  refine ⟨grew.storage, grew.hash_eq ▸ inserted.formed, ?_, ?_, ?_, ?_⟩
  · intro slot member
    rcases List.mem_cons.mp (slots.mem_iff.mp member) with rfl | older
    · simp only [newSlot, newString]
      exact grew.stored
    · rw [same slot older]
      exact grew.kept _ _ (indexed.stored slot older)
  · intro slot member
    rcases List.mem_cons.mp (slots.mem_iff.mp member) with rfl | older
    · simp only [newSlot, hashCallbacks, newString, probe.stringAt short]
    · rw [same slot older]
      exact indexed.hashed slot older
  · have older : (allSlots db.hash).map (slotEntry grown) =
        (allSlots db.hash).map (slotEntry db) := by
      apply List.map_congr_left
      intro slot member
      simp only [slotEntry, same slot member]
    have mapped := slots.map (slotEntry grown)
    rw [List.map_cons, older] at mapped
    refine mapped.trans ?_
    rw [List.zipIdx_append, List.zipIdx_singleton]
    simp only [slotEntry, newSlot, newString, Nat.add_comm]
    refine (indexed.entries.cons _).trans ?_
    exact (List.perm_append_singleton _ _).symm
  · rw [List.nodup_append]
    refine ⟨indexed.nodup, List.nodup_singleton string, ?_⟩
    intro word member other single
    rw [List.mem_singleton.mp single]
    rintro rfl
    exact fresh member

end Indexed

/-! The fixed blocks: the record of a word id, and whole registrations. -/

/-- Where the record of the word with index `index`, id `index + 1`, stands. -/
def fbOffset (index : Nat) : WordOffset :=
  WordOffset.pack (index / numWordsPerBlock)
    (index % numWordsPerBlock * internalWordSize)

theorem numWordsPerBlock_eq : numWordsPerBlock = 4000000 := rfl

theorem fbOffset_blockIdx {index : Nat}
    (bound : index / numWordsPerBlock < maxBlockNum) :
    (fbOffset index).blockIdx.toNat = index / numWordsPerBlock :=
  WordOffset.pack_blockIdx _ (bound.trans (by decide))

theorem fbOffset_offset (index : Nat) :
    (fbOffset index).offset.toNat =
      index % numWordsPerBlock * internalWordSize := by
  apply WordOffset.pack_offset
  simp only [numWordsPerBlock_eq, internalWordSize, blockDataSize]
  omega

structure FixedInv (db : WordDb) (words : List (List UInt8)) : Prop where
  last : db.lastWordid = words.length
  alloc_eq : db.allocFixedBlockNum = (words.length - 1) / numWordsPerBlock + 1
  alloc_le : db.allocFixedBlockNum ≤ maxBlockNum
  mapped : ∀ blockIdx,
    (db.fixedBlock blockIdx).isSome = true ↔ blockIdx < db.allocFixedBlockNum
  entries : ∀ index word, words[index]? = some word →
    ∃ key, offset2ptrFixed db (fbOffset index) = some key ∧ Stored db key word

/-- The state after a successful `new_fb_offset`. -/
def placeRecord (db : WordDb) (block : Block (Nat → WordOffset)) : WordDb :=
  let blockIdx := db.lastWordid / numWordsPerBlock
  let offset := db.lastWordid % numWordsPerBlock * internalWordSize
  { db with
    lastWordid := db.lastWordid + 1
    allocFixedBlockNum := blockIdx + 1
    fixedBlock := Function.update db.fixedBlock blockIdx
      (some { block with usedBytes := offset + internalWordSize }) }

def recordWord (db : WordDb) (block : Block (Nat → WordOffset))
    (wordOffset : WordOffset) : WordDb :=
  let blockIdx := db.lastWordid / numWordsPerBlock
  let offset := db.lastWordid % numWordsPerBlock * internalWordSize
  { db with
    lastWordid := db.lastWordid + 1
    allocFixedBlockNum := blockIdx + 1
    fixedBlock := Function.update db.fixedBlock blockIdx
      (some {
        usedBytes := offset + internalWordSize
        data := Function.update block.data offset wordOffset }) }

def emptyFixedBlock : Block (Nat → WordOffset) :=
  { usedBytes := 0, data := fun _ => .pack 0 0 }

/-- The fixed block the next record goes to, mapped if it was not. -/
def nextFixedBlock (env : Env) (db : WordDb) : Option (Block (Nat → WordOffset)) :=
  let blockIdx := db.lastWordid / numWordsPerBlock
  match db.fixedBlock blockIdx with
  | some block => some block
  | none =>
    if env.mmapBlock .typeFixed blockIdx then some emptyFixedBlock else none

section Fixed

variable {env : Env} {db : WordDb} {words : List (List UInt8)}

theorem FixedInv.next_mapped (inv : FixedInv db words)
    {block : Block (Nat → WordOffset)}
    (mapped : db.fixedBlock (db.lastWordid / numWordsPerBlock) = some block) :
    db.allocFixedBlockNum = db.lastWordid / numWordsPerBlock + 1 := by
  have lower := (inv.mapped _).mp (by rw [mapped]; rfl)
  have alloc := inv.alloc_eq
  have last := inv.last
  rw [numWordsPerBlock_eq] at alloc lower ⊢
  omega

theorem FixedInv.next_unmapped (inv : FixedInv db words)
    (unmapped : db.fixedBlock (db.lastWordid / numWordsPerBlock) = none) :
    db.allocFixedBlockNum = db.lastWordid / numWordsPerBlock := by
  have upper : ¬ db.lastWordid / numWordsPerBlock < db.allocFixedBlockNum := by
    rw [← inv.mapped, unmapped]
    exact Bool.false_ne_true
  have alloc := inv.alloc_eq
  have last := inv.last
  rw [numWordsPerBlock_eq] at alloc upper ⊢
  omega

theorem FixedInv.newFbOffset (inv : FixedInv db words)
    (within : db.lastWordid / numWordsPerBlock < maxBlockNum) (env : Env) :
    match nextFixedBlock env db with
    | none => Lexicon.newFbOffset env
        { db with lastWordid := db.lastWordid + 1 } (db.lastWordid + 1) =
          some ({ db with lastWordid := db.lastWordid + 1 }, none)
    | some block => Lexicon.newFbOffset env
        { db with lastWordid := db.lastWordid + 1 } (db.lastWordid + 1) =
          some (placeRecord db block, some (fbOffset db.lastWordid)) := by
  cases mapped : db.fixedBlock (db.lastWordid / numWordsPerBlock) with
  | some block =>
    simp only [nextFixedBlock, mapped]
    have alloc := inv.next_mapped mapped
    simp only [Lexicon.newFbOffset, Nat.add_sub_cancel, placeRecord,
      if_neg (Nat.not_le.mpr within), mapped, alloc]
    rfl
  | none =>
    cases mappable : env.mmapBlock .typeFixed
        (db.lastWordid / numWordsPerBlock) with
    | false =>
      simp only [nextFixedBlock, mapped, mappable, Bool.false_eq_true,
        if_false]
      simp only [Lexicon.newFbOffset, Nat.add_sub_cancel, loadBlock,
        if_neg (Nat.not_le.mpr within), mapped, mappable,
        Bool.false_eq_true, if_false]
    | true =>
      simp only [nextFixedBlock, mapped, mappable, if_true]
      simp only [Lexicon.newFbOffset, Nat.add_sub_cancel, loadBlock,
        if_neg (Nat.not_le.mpr within), mapped, mappable, if_true,
        Function.update_self, Function.update_idem, placeRecord,
        emptyFixedBlock]
      rfl

theorem fixedWrite_placeRecord
    (within : db.lastWordid / numWordsPerBlock < maxBlockNum)
    (block : Block (Nat → WordOffset)) (wordOffset : WordOffset) :
    fixedWrite (placeRecord db block) (fbOffset db.lastWordid) wordOffset =
      some (recordWord db block wordOffset, true) := by
  have index := fbOffset_blockIdx within
  have offset := fbOffset_offset db.lastWordid
  have fits : ¬ blockDataSize < db.lastWordid % numWordsPerBlock *
      internalWordSize + internalWordSize := by
    simp only [numWordsPerBlock_eq, internalWordSize, blockDataSize]
    omega
  simp only [fixedWrite, index, placeRecord, Function.update_self,
    Function.update_idem, offset, if_neg fits, recordWord]

theorem FixedInv.recordWord (inv : FixedInv db words)
    (within : db.lastWordid / numWordsPerBlock < maxBlockNum)
    {block : Block (Nat → WordOffset)} {wordOffset : WordOffset}
    {string : List UInt8} (found : nextFixedBlock env db = some block)
    (stored : Stored db wordOffset string) :
    FixedInv (recordWord db block wordOffset) (words ++ [string]) := by
  have last := inv.last
  have index := fbOffset_blockIdx within
  have offset := fbOffset_offset db.lastWordid
  refine ⟨by simp [Lexicon.recordWord, last], ?_, within, ?_, ?_⟩
  · simp [Lexicon.recordWord, last]
  · intro blockIdx
    simp only [Lexicon.recordWord]
    by_cases same : blockIdx = db.lastWordid / numWordsPerBlock
    · subst same
      simp
    · rw [Function.update_of_ne same, inv.mapped]
      cases mapped : db.fixedBlock (db.lastWordid / numWordsPerBlock) with
      | some owner =>
        rw [inv.next_mapped mapped]
      | none =>
        rw [inv.next_unmapped mapped]
        omega
  · intro other word at_other
    rcases Nat.lt_or_ge other words.length with older | newer
    · rw [List.getElem?_append_left older] at at_other
      obtain ⟨key, pointed, held⟩ := inv.entries other word at_other
      refine ⟨key, ?_, held.congr rfl rfl⟩
      have ordered : other / numWordsPerBlock ≤
          db.lastWordid / numWordsPerBlock := Nat.div_le_div_right (by omega)
      have otherIndex := fbOffset_blockIdx (ordered.trans_lt within)
      have otherOffset := fbOffset_offset other
      simp only [offset2ptrFixed, otherIndex, otherOffset] at pointed
      split at pointed
      case isTrue => cases pointed
      case isFalse =>
        simp only [offset2ptrFixed, otherIndex, otherOffset, Lexicon.recordWord,
          if_neg (Nat.not_le.mpr (Nat.lt_succ_of_le ordered))]
        by_cases sameBlock : other / numWordsPerBlock =
            db.lastWordid / numWordsPerBlock
        · rw [sameBlock, Function.update_self]
          rw [sameBlock] at pointed
          simp only
          have differs : other % numWordsPerBlock * internalWordSize ≠
              db.lastWordid % numWordsPerBlock * internalWordSize := by
            simp only [numWordsPerBlock_eq, internalWordSize] at sameBlock ⊢
            omega
          rw [Function.update_of_ne differs]
          cases mapped : db.fixedBlock (db.lastWordid / numWordsPerBlock) with
          | none => simp [mapped] at pointed
          | some owner =>
            simp only [nextFixedBlock, mapped] at found
            cases found
            simpa [mapped] using pointed
        · rw [Function.update_of_ne sameBlock]
          exact pointed
    · have exactly : other = words.length := by
        have bound := (List.getElem?_eq_some_iff.mp at_other).1
        simp only [List.length_append, List.length_singleton] at bound
        omega
      subst exactly
      simp only [List.getElem?_concat_length, Option.some.injEq] at at_other
      subst at_other
      refine ⟨wordOffset, ?_, stored.congr rfl rfl⟩
      rw [last] at index offset
      simp only [offset2ptrFixed, index, offset, Lexicon.recordWord, last]
      simp

end Fixed

end Wisebot.Lexicon
