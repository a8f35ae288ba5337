import Wisebot.Hash.Entries
import Wisebot.Lib.Transition
import Wisebot.Lexicon.Bijection

namespace Wisebot.Lexicon

open Wisebot.Lib Wisebot.Hash

/-! Runs in which calls may fail. `get_new_wordid` puts a word into the index
before it knows that the record can be written. -/

/-- A database and the answers `get_new_wordid` gave, the last one first. -/
structure Session where
  db : WordDb
  log : List (List UInt8 × WordResult)

def Session.step (md5 : List UInt8 → HashKey) (session : Session) :
    Env × Call → Option Session
  | (env, .getNewWordid word) =>
    match getNewWordid md5 env session.db word with
    | none => none
    | some (db, result) =>
      some { db := db, log := (cutWord word, result) :: session.log }
  | (env, .getWordid word) =>
    match getWordid md5 env session.db word with
    | none => none
    | some (db, _) => some { session with db := db }

def Reported (md5 : List UInt8 → HashKey) (db : WordDb) (word : List UInt8)
    (wordid : Nat) : Prop :=
  ∃ env after, getWordid md5 env db word = some (after, .oldRegistered wordid)

/-- No id is reported for two words, and none for a word that was not
registered. -/
structure UniqueIds (md5 : List UInt8 → HashKey) (session : Session) : Prop where
  unique : ∀ first second wordid, Reported md5 session.db first wordid →
    Reported md5 session.db second wordid → cutWord first = cutWord second
  registered : ∀ word wordid, Reported md5 session.db word wordid →
    (cutWord word, .newRegistered wordid) ∈ session.log

def NewlyIndexed (md5 : List UInt8 → HashKey) (env : Env) (db : WordDb)
    (word : List UInt8) : Prop :=
  ∃ put wordOffset, lexiconIndexPut md5 env db (cutWord word)
    (db.lastWordid + 1) = some (put, .newRegistered wordOffset)

/-- The last blocks are not full, and the block of the next record is mapped or
can be. -/
structure HasRoom (env : Env) (db : WordDb) (word : List UInt8) : Prop where
  variableRoom : ∀ block, db.allocVariableBlockNum = maxBlockNum →
    db.variableBlock (maxBlockNum - 1) = some block →
    block.usedBytes + (cutWord word).length + 1 ≤ blockDataSize - maxWordLen * 3
  fixedRoom : ∀ block, db.allocFixedBlockNum = maxBlockNum →
    db.fixedBlock (maxBlockNum - 1) = some block →
    block.usedBytes ≤ blockDataSize - internalWordSize * 3
  fixedMapped : (nextFixedBlock env db).isSome = true

def Roomy (md5 : List UInt8 → HashKey) (session : Session) : Env × Call → Prop
  | (env, .getNewWordid word) =>
    cutWord word ≠ [] → NewlyIndexed md5 env session.db word →
      HasRoom env session.db word
  | (_, .getWordid _) => True

/-! Ids in the index point into the list of accepted words. -/

structure Sound (db : WordDb) (accepted : List (List UInt8)) : Prop where
  storage : StorageInv db
  sorted : AllSorted db.hash
  entries : ∀ key wordid, Entry db.hash key wordid →
    ∃ index word, wordid = index + 1 ∧ accepted[index]? = some word ∧
      Stored db key word
  last : db.lastWordid = accepted.length

section Sound

variable {md5 : List UInt8 → HashKey} {env : Env} {db other : WordDb}
  {accepted : List (List UInt8)} {word : List UInt8}

theorem Sound.transfer (sound : Sound db accepted) (storage : StorageInv other)
    (kept : ∀ key string, Stored db key string → Stored other key string)
    (sorted : AllSorted other.hash)
    (older : ∀ key wordid, Entry other.hash key wordid → Entry db.hash key wordid)
    (sameLast : other.lastWordid = db.lastWordid) : Sound other accepted := by
  refine ⟨storage, sorted, ?_, sameLast.trans sound.last⟩
  intro key wordid entry
  obtain ⟨index, string, same, at_index, stored⟩ :=
    sound.entries key wordid (older key wordid entry)
  exact ⟨index, string, same, at_index, kept key string stored⟩

theorem Sound.probed (sound : Sound db accepted) {probed : WordDb}
    {wordOffset : WordOffset} {string : List UInt8}
    (probe : Probed db probed wordOffset string) : Sound probed accepted := by
  apply sound.transfer probe.storage probe.kept
  · rw [probe.hash_eq]
    exact sound.sorted
  · intro key wordid entry
    rwa [probe.hash_eq] at entry
  · exact probe.lastWordid_eq

theorem Sound.reported (sound : Sound db accepted) {wordid : Nat}
    (reported : Reported md5 db word wordid) :
    ∃ index, wordid = index + 1 ∧ accepted[index]? = some (cutWord word) := by
  obtain ⟨env, after, ran⟩ := reported
  unfold getWordid at ran
  simp only at ran
  split at ran
  case isTrue => cases ran
  case isFalse =>
    have short := cutWord_short word
    cases lexiconIndexGet_cases sound.storage short (cutWord_nonzero word) ran with
    | found probe searched =>
      obtain ⟨key, entry, equal⟩ := hashSearch_entry sound.sorted searched
      obtain ⟨index, string, same, at_index, stored⟩ :=
        sound.entries key wordid entry
      have pointed := (probe.kept key string stored).stringAt probe.storage
      simp only [hashCallbacks, beq_iff_eq] at equal
      rw [pointed, probe.stringAt short] at equal
      exact ⟨index, same, equal ▸ at_index⟩

theorem Sound.refused (sound : Sound db accepted) {probed : WordDb}
    {wordOffset : WordOffset} {string : List UInt8} {wordid : Nat}
    {hash : Table WordOffset Nat} {reply : AddResult Nat}
    (probe : Probed db probed wordOffset string)
    (added : hashAdd (hashCallbacks md5 env probed) db.hash wordOffset wordid =
      some (hash, reply)) (refusal : reply ≠ .success) :
    Sound { probed with hash := hash } accepted := by
  obtain ⟨sorted, entries⟩ := hashAddFuel_entries sound.sorted added
  refine sound.transfer ?_ ?_ sorted ?_ probe.lastWordid_eq
  · exact ⟨probe.storage.alloc_pos, probe.storage.alloc_le, probe.storage.mapped⟩
  · exact fun key other stored => (probe.kept key other stored).congr rfl rfl
  · intro key id entry
    rcases entries key id entry with older | ⟨success, _⟩
    · exact older
    · exact absurd success refusal

theorem Sound.grown (sound : Sound db accepted) {probed grown : WordDb}
    {wordOffset : WordOffset} {string : List UInt8}
    {hash : Table WordOffset Nat}
    (added : hashAdd (hashCallbacks md5 env probed) db.hash wordOffset
      (db.lastWordid + 1) = some (hash, .success))
    (grew : Grown db grown hash wordOffset string) :
    Sound { grown with lastWordid := grown.lastWordid + 1 }
      (accepted ++ [string]) := by
  obtain ⟨sorted, entries⟩ := hashAddFuel_entries sound.sorted added
  refine ⟨⟨grew.storage.alloc_pos, grew.storage.alloc_le, grew.storage.mapped⟩,
    ?_, ?_, ?_⟩
  · simp only [grew.hash_eq]
    exact sorted
  · intro key id entry
    simp only [grew.hash_eq] at entry
    rcases entries key id entry with older | ⟨_, rfl, rfl⟩
    · obtain ⟨index, other, same, at_index, stored⟩ := sound.entries key id older
      have bound := (List.getElem?_eq_some_iff.mp at_index).1
      refine ⟨index, other, same, ?_, (grew.kept key other stored).congr rfl rfl⟩
      rw [List.getElem?_append_left bound]
      exact at_index
    · refine ⟨accepted.length, string, by rw [sound.last], ?_,
        grew.stored.congr rfl rfl⟩
      exact List.getElem?_concat_length
  · simp [grew.lastWordid_eq, sound.last]

theorem lastBlockFull_true {Contents : Type} {allocBlockNum limit : Nat}
    {block : Nat → Option (Block Contents)}
    (full : lastBlockFull allocBlockNum block limit = some true) :
    allocBlockNum = maxBlockNum ∧ ∃ last, block (maxBlockNum - 1) = some last ∧
      limit < last.usedBytes := by
  unfold lastBlockFull at full
  split at full
  case isFalse => cases full
  case isTrue all =>
    split at full
    case h_1 => cases full
    case h_2 last mapped =>
      exact ⟨all, last, mapped, by simpa using full⟩

theorem HasRoom.checkDbNotFull {grown : WordDb} {wordOffset : WordOffset}
    {hash : Table WordOffset Nat} (room : HasRoom env db word)
    (grew : Grown db grown hash wordOffset (cutWord word)) :
    checkDbNotFull grown ≠ some false := by
  intro full
  have short := cutWord_short word
  unfold Lexicon.checkDbNotFull at full
  split at full
  case h_1 => cases full
  case h_2 fixedFull =>
    obtain ⟨alloc, block, mapped, beyond⟩ := lastBlockFull_true fixedFull
    rw [grew.allocFixed_eq] at alloc
    rw [grew.fixedBlock_eq] at mapped
    have bound := room.fixedRoom block alloc mapped
    omega
  case h_3 =>
    split at full
    case h_1 => cases full
    case h_2 variableFull =>
      simp only [Option.some.injEq, Bool.not_eq_false'] at full
      subst full
      obtain ⟨alloc, block, mapped, beyond⟩ := lastBlockFull_true variableFull
      have last := grew.last
      have index : wordOffset.blockIdx.toNat = maxBlockNum - 1 := by omega
      obtain ⟨other, otherMapped, used⟩ := grew.used
      rw [index] at otherMapped
      obtain rfl := Option.some.inj (mapped.symm.trans otherMapped)
      rcases grew.source with atStart | ⟨sameAlloc, older, olderMapped, olderUsed⟩
      · rw [used, atStart] at beyond
        simp only [maxWordLen, blockDataSize] at short beyond
        omega
      · rw [index] at olderMapped
        have bound := room.variableRoom older (sameAlloc ▸ alloc) olderMapped
        omega

theorem newFbOffset_refused {placed : WordDb}
    (refused : newFbOffset env { db with lastWordid := db.lastWordid + 1 }
      (db.lastWordid + 1) = some (placed, none)) :
    nextFixedBlock env db = none := by
  have within := newFbOffset_within refused
  simp only [newFbOffset, if_neg (Nat.not_le.mpr within)] at refused
  rw [Nat.add_sub_cancel] at within refused
  unfold nextFixedBlock
  cases mapped : db.fixedBlock (db.lastWordid / numWordsPerBlock) with
  | some block => simp [mapped] at refused
  | none =>
    cases mappable : env.mmapBlock .typeFixed
        (db.lastWordid / numWordsPerBlock) with
    | false => simp [mapped, mappable]
    | true =>
      simp [mapped, loadBlock, mappable, Nat.not_le.mpr within] at refused

theorem loadBlock_fixed_frame (env : Env) (db : WordDb) (blockIdx : Nat) :
    let loaded := (loadBlock env db .typeFixed blockIdx).1
    loaded.variableBlock = db.variableBlock ∧
      loaded.allocVariableBlockNum = db.allocVariableBlockNum ∧
      loaded.hash = db.hash ∧ loaded.lastWordid = db.lastWordid := by
  simp only [loadBlock]
  split
  · exact ⟨rfl, rfl, rfl, rfl⟩
  · split <;> exact ⟨rfl, rfl, rfl, rfl⟩

theorem newFbOffset_frame {placed : WordDb} {wordid : Nat}
    {found : Option WordOffset}
    (result : newFbOffset env db wordid = some (placed, found)) :
    placed.variableBlock = db.variableBlock ∧
      placed.allocVariableBlockNum = db.allocVariableBlockNum ∧
      placed.hash = db.hash ∧ placed.lastWordid = db.lastWordid ∧
      ∀ fb, found = some fb → fb = fbOffset (wordid - 1) := by
  unfold newFbOffset at result
  simp only at result
  split at result
  case isTrue => cases result
  split at result
  case h_1 block mapped =>
    cases result
    exact ⟨rfl, rfl, rfl, rfl, fun fb same => (Option.some.inj same).symm⟩
  case h_2 unmapped =>
    split at result
    case h_1 loaded failed =>
      cases result
      have same := loadBlock_fixed_frame env db ((wordid - 1) / numWordsPerBlock)
      rw [failed] at same
      exact ⟨same.1, same.2.1, same.2.2.1, same.2.2.2, fun fb absent => by cases absent⟩
    case h_2 loaded succeeded =>
      have same := loadBlock_fixed_frame env db ((wordid - 1) / numWordsPerBlock)
      rw [succeeded] at same
      split at result
      case h_1 => cases result
      case h_2 block mapped =>
        cases result
        exact ⟨same.1, same.2.1, same.2.2.1, same.2.2.2,
          fun fb found => (Option.some.inj found).symm⟩

theorem fixedWrite_fbOffset {index : Nat} {wordOffset : WordOffset} {success : Bool}
    (result : fixedWrite db (fbOffset index) wordOffset = some (other, success)) :
    success = true ∧ other.variableBlock = db.variableBlock ∧
      other.allocVariableBlockNum = db.allocVariableBlockNum ∧
      other.hash = db.hash ∧ other.lastWordid = db.lastWordid := by
  have fits : ¬ blockDataSize < (fbOffset index).offset.toNat +
      internalWordSize := by
    rw [fbOffset_offset]
    simp only [numWordsPerBlock_eq, internalWordSize, blockDataSize]
    omega
  simp only [fixedWrite, if_neg fits] at result
  split at result
  case h_1 => cases result
  case h_2 => 
    cases result
    exact ⟨rfl, rfl, rfl, rfl, rfl⟩

theorem Sound.recorded (sound : Sound db accepted) {wordid : Nat}
    {placed : WordDb} {wordOffset fb : WordOffset} {success : Bool}
    (place : newFbOffset env db wordid = some (placed, some fb))
    (write : fixedWrite placed fb wordOffset = some (other, success)) :
    success = true ∧ Sound other accepted := by
  obtain ⟨blocks, alloc, hash, last, offset⟩ := newFbOffset_frame place
  rw [offset fb rfl] at write
  obtain ⟨succeeded, blocks', alloc', hash', last'⟩ := fixedWrite_fbOffset write
  have sameBlocks := blocks'.trans blocks
  have sameAlloc := alloc'.trans alloc
  refine ⟨succeeded, sound.transfer ?_ ?_ ?_ ?_ (last'.trans last)⟩
  · refine ⟨sameAlloc ▸ sound.storage.alloc_pos,
      sameAlloc ▸ sound.storage.alloc_le, ?_⟩
    rw [sameBlocks, sameAlloc]
    exact sound.storage.mapped
  · exact fun key string stored => stored.congr sameAlloc sameBlocks
  · rw [hash', hash]
    exact sound.sorted
  · intro key id entry
    rwa [hash', hash] at entry

theorem Sound.getNewWordid (sound : Sound db accepted) {result : WordResult}
    (ran : getNewWordid md5 env db word = some (other, result))
    (roomy : cutWord word ≠ [] → NewlyIndexed md5 env db word →
      HasRoom env db word) :
    Sound other accepted ∨
      result = .newRegistered (accepted.length + 1) ∧
        Sound other (accepted ++ [cutWord word]) := by
  cases getNewWordid_cases ran with
  | empty => exact .inl sound
  | old proper found =>
    cases lexiconIndexPut_cutWord sound.storage found with
    | old probe added =>
      exact .inl (sound.refused probe added (by simp))
  | refused proper found =>
    cases lexiconIndexPut_cutWord sound.storage found with
    | unplaced => exact .inl sound
    | refused probe added refusal =>
      refine .inl (sound.refused probe added ?_)
      rcases refusal with rfl | rfl <;> simp
  | full proper found checked =>
    have room := roomy proper ⟨_, _, found⟩
    cases lexiconIndexPut_cutWord sound.storage found with
    | stored probe added grew =>
      exact absurd checked (room.checkDbNotFull grew)
  | unmapped proper found checked refusal =>
    have room := roomy proper ⟨_, _, found⟩
    cases lexiconIndexPut_cutWord sound.storage found with
    | stored probe added grew =>
      have mapped := room.fixedMapped
      have refused := newFbOffset_refused refusal
      unfold nextFixedBlock at mapped refused
      rw [grew.fixedBlock_eq, grew.lastWordid_eq] at refused
      rw [refused] at mapped
      cases mapped
  | written proper found checked place write =>
    cases lexiconIndexPut_cutWord sound.storage found with
    | stored probe added grew =>
      obtain ⟨rfl, recorded⟩ := (sound.grown added grew).recorded place write
      refine .inr ⟨?_, recorded⟩
      rw [if_pos rfl, grew.lastWordid_eq, sound.last]

theorem Sound.getWordid (sound : Sound db accepted) {result : WordResult}
    (ran : getWordid md5 env db word = some (other, result)) :
    Sound other accepted := by
  unfold Lexicon.getWordid at ran
  simp only at ran
  split at ran
  case isTrue =>
    cases ran
    exact sound
  case isFalse =>
    cases lexiconIndexGet_cases sound.storage (cutWord_short word)
      (cutWord_nonzero word) ran with
    | unplaced => exact sound
    | missing probe => exact sound.probed probe
    | found probe => exact sound.probed probe

end Sound

def Session.Inv (session : Session) : Prop :=
  ∃ accepted, Sound session.db accepted ∧
    ∀ index word, accepted[index]? = some word →
      (word, .newRegistered (index + 1)) ∈ session.log

theorem Session.step_inv {md5 : List UInt8 → HashKey} {session next : Session}
    {label : Env × Call} (inv : session.Inv) (roomy : Roomy md5 session label)
    (stepped : session.step md5 label = some next) : next.Inv := by
  obtain ⟨accepted, sound, logged⟩ := inv
  obtain ⟨env, call⟩ := label
  cases call with
  | getWordid word =>
    simp only [Session.step] at stepped
    split at stepped
    case h_1 => cases stepped
    case h_2 db result ran =>
      cases stepped
      exact ⟨accepted, sound.getWordid ran, logged⟩
  | getNewWordid word =>
    simp only [Session.step] at stepped
    split at stepped
    case h_1 => cases stepped
    case h_2 db result ran =>
      cases stepped
      rcases sound.getNewWordid ran roomy with kept | ⟨rfl, grown⟩
      · exact ⟨accepted, kept, fun index other at_index =>
          List.mem_cons_of_mem _ (logged index other at_index)⟩
      · refine ⟨_, grown, fun index other at_index => ?_⟩
        rcases Nat.lt_or_ge index accepted.length with older | newer
        · rw [List.getElem?_append_left older] at at_index
          exact List.mem_cons_of_mem _ (logged index other at_index)
        · have bound := (List.getElem?_eq_some_iff.mp at_index).1
          simp only [List.length_append, List.length_singleton] at bound
          obtain rfl : index = accepted.length := by omega
          rw [List.getElem?_concat_length] at at_index
          cases at_index
          exact List.mem_cons_self

theorem Session.Inv.uniqueIds {md5 : List UInt8 → HashKey} {session : Session}
    (inv : session.Inv) : UniqueIds md5 session := by
  obtain ⟨accepted, sound, logged⟩ := inv
  constructor
  · intro first second wordid firstReported secondReported
    obtain ⟨index, same, at_first⟩ := sound.reported firstReported
    obtain ⟨other, otherSame, at_second⟩ := sound.reported secondReported
    obtain rfl : index = other := by omega
    exact Option.some.inj (at_first.symm.trans at_second)
  · intro word wordid reported
    obtain ⟨index, rfl, at_index⟩ := sound.reported reported
    exact logged index _ at_index

theorem openWordDb_sound {md5 : List UInt8 → HashKey} {env : Env} {db : WordDb}
    (opened : openWordDb md5 env = some db) : Sound db [] := by
  obtain ⟨callbacks, hash, created, rfl⟩ := openWordDb_eq_some opened
  obtain ⟨sorted, nothing⟩ := hashOpen_allSorted created
  exact ⟨createdDb_storage hash, sorted,
    fun key wordid entry => absurd entry (nothing key wordid), rfl⟩

theorem roomy_run_uniqueIds {md5 : List UInt8 → HashKey} {env : Env}
    {start : WordDb} {session : Session}
    (opened : openWordDb md5 env = some start)
    (reached : Reach (Session.step md5) (Roomy md5)
      { db := start, log := [] } session) :
    UniqueIds md5 session := by
  apply Session.Inv.uniqueIds
  refine reached.invariant Session.Inv ⟨[], openWordDb_sound opened, by simp⟩ ?_
  intro state label next inv roomy stepped
  exact Session.step_inv inv roomy stepped

theorem createdDb_hasRoom (env : Env) (hash : Table WordOffset Nat)
    (word : List UInt8) : HasRoom env (createdDb hash) word where
  variableRoom := fun _ alloc => absurd alloc (by decide : 1 ≠ maxBlockNum)
  fixedRoom := fun _ alloc => absurd alloc (by decide : 1 ≠ maxBlockNum)
  fixedMapped := by simp [nextFixedBlock, createdDb]

theorem roomy_run_uniqueIds_sample :
    ∃ start session, openWordDb md5Samples allMapped = some start ∧
      Reach (Session.step md5Samples) (Roomy md5Samples)
        { db := start, log := [] } session ∧
      session.log = [([97], .newRegistered 1)] ∧
      UniqueIds md5Samples session := by
  have replied : ((openWordDb md5Samples allMapped).bind fun start =>
      Session.step md5Samples { db := start, log := [] }
        (allMapped, .getNewWordid [97])).map Session.log =
      some [([97], .newRegistered 1)] := by
    decide +kernel
  obtain ⟨session, bound, same⟩ := Option.map_eq_some_iff.mp replied
  obtain ⟨start, opened, stepped⟩ := Option.bind_eq_some_iff.mp bound
  obtain ⟨callbacks, hash, _, rfl⟩ := openWordDb_eq_some opened
  have reached : Reach (Session.step md5Samples) (Roomy md5Samples)
      { db := createdDb hash, log := [] } session :=
    Reach.start.step (allMapped, .getNewWordid [97])
      (fun _ _ => createdDb_hasRoom allMapped hash [97]) stepped
  exact ⟨_, session, opened, reached, same, roomy_run_uniqueIds opened reached⟩

end Wisebot.Lexicon
