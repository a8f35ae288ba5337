import Wisebot.Lexicon.Index

namespace Wisebot.Lexicon

open Wisebot.Lib Wisebot.Hash

/-! Runs of `get_new_wordid` and `get_wordid` against the list of registered
words, in which a word's id is its position. -/

inductive Call where
  | getNewWordid (word : List UInt8)
  | getWordid (word : List UInt8)

def Call.run (md5 : List UInt8 → HashKey) (env : Env) (db : WordDb) :
    Call → Option (WordDb × WordResult)
  | .getNewWordid word => Lexicon.getNewWordid md5 env db word
  | .getWordid word => Lexicon.getWordid md5 env db word

def runCalls (md5 : List UInt8 → HashKey) :
    WordDb → List (Env × Call) → Option (WordDb × List WordResult)
  | db, [] => some (db, [])
  | db, (env, call) :: rest => do
      let (next, result) ← call.run md5 env db
      let (final, results) ← runCalls md5 next rest
      some (final, result :: results)

/-! What the calls should answer; `registrable` tells which strings are words. -/

def Call.answer (registrable : List UInt8 → Bool) (words : List (List UInt8)) :
    Call → List (List UInt8) × WordResult
  | .getNewWordid word =>
    if registrable (cutWord word) then
      match words.idxOf? (cutWord word) with
      | some index => (words, .oldRegistered (index + 1))
      | none => (words ++ [cutWord word], .newRegistered (words.length + 1))
    else (words, .notRegistered)
  | .getWordid word =>
    if registrable (cutWord word) then
      match words.idxOf? (cutWord word) with
      | some index => (words, .oldRegistered (index + 1))
      | none => (words, .notRegistered)
    else (words, .notRegistered)

def answers (registrable : List UInt8 → Bool) :
    List (List UInt8) → List Call → List (List UInt8) × List WordResult
  | words, [] => (words, [])
  | words, call :: rest =>
    let (next, result) := call.answer registrable words
    let (final, results) := answers registrable next rest
    (final, result :: results)

structure Registered (md5 : List UInt8 → HashKey) (db : WordDb)
    (words : List (List UInt8)) : Prop where
  indexed : Indexed md5 db words
  fixed : FixedInv db words

def nonempty (string : List UInt8) : Bool := !string.isEmpty

section Steps

variable {md5 : List UInt8 → HashKey} {env : Env} {db after : WordDb}
  {words : List (List UInt8)} {word : List UInt8} {result : WordResult}

theorem FixedInv.transfer {other : WordDb} (inv : FixedInv db words)
    (kept : ∀ key string, Stored db key string → Stored other key string)
    (sameLast : other.lastWordid = db.lastWordid)
    (sameAlloc : other.allocFixedBlockNum = db.allocFixedBlockNum)
    (sameBlocks : other.fixedBlock = db.fixedBlock) : FixedInv other words := by
  refine ⟨sameLast ▸ inv.last, sameAlloc ▸ inv.alloc_eq, sameAlloc ▸ inv.alloc_le,
    ?_, ?_⟩
  · rw [sameBlocks, sameAlloc]
    exact inv.mapped
  · intro index word at_index
    obtain ⟨key, pointed, stored⟩ := inv.entries index word at_index
    refine ⟨key, ?_, kept key word stored⟩
    unfold offset2ptrFixed at pointed ⊢
    rw [sameBlocks, sameAlloc]
    exact pointed

theorem Registered.probed (registered : Registered md5 db words) {probed : WordDb}
    {wordOffset : WordOffset} {string : List UInt8}
    (probe : Probed db probed wordOffset string) : Registered md5 probed words where
  indexed := registered.indexed.probed probe
  fixed := registered.fixed.transfer probe.kept probe.lastWordid_eq
    probe.allocFixed_eq probe.fixedBlock_eq

theorem Registered.getWordid (registered : Registered md5 db words)
    (ran : getWordid md5 env db word = some (after, result))
    (succeeded : result ≠ .fail) :
    result = ((Call.getWordid word).answer nonempty words).2 ∧
      Registered md5 after ((Call.getWordid word).answer nonempty words).1 := by
  unfold Lexicon.getWordid at ran
  simp only at ran
  split at ran
  case isTrue empty =>
    cases ran
    simp [Call.answer, nonempty, List.length_eq_zero_iff.mp empty, registered]
  case isFalse full =>
    have proper : nonempty (cutWord word) = true := by
      simpa [nonempty, List.length_eq_zero_iff] using full
    have short := cutWord_short word
    cases lexiconIndexGet_cases registered.indexed.storage short
      (cutWord_nonzero word) ran with
    | unplaced => exact absurd rfl succeeded
    | missing probe searched =>
      rw [registered.indexed.search probe short env] at searched
      cases position : words.idxOf? (cutWord word) with
      | none =>
        simp only [Call.answer, proper, if_true, position, true_and]
        exact registered.probed probe
      | some index => simp [position] at searched
    | found probe searched =>
      rw [registered.indexed.search probe short env] at searched
      cases position : words.idxOf? (cutWord word) with
      | none => simp [position] at searched
      | some index =>
        simp only [position, Option.map_some, Option.some.injEq] at searched
        simp only [Call.answer, proper, if_true, position]
        exact ⟨by rw [searched], registered.probed probe⟩

theorem newFbOffset_within {placed : WordDb} {wordid : Nat}
    {found : Option WordOffset}
    (result : newFbOffset env db wordid = some (placed, found)) :
    (wordid - 1) / numWordsPerBlock < maxBlockNum := by
  unfold newFbOffset at result
  simp only at result
  split at result
  case isTrue => cases result
  case isFalse within => exact Nat.not_le.mp within

theorem Indexed.recordWord (indexed : Indexed md5 db words)
    (block : Block (Nat → WordOffset)) (wordOffset : WordOffset) :
    Indexed md5 (recordWord db block wordOffset) words := by
  refine indexed.transfer ?_ ?_ rfl
  · exact ⟨indexed.storage.alloc_pos, indexed.storage.alloc_le,
      indexed.storage.mapped⟩
  · exact fun key string stored => stored.congr rfl rfl

theorem Registered.record (indexed : Indexed md5 db (words ++ [word]))
    (fixed : FixedInv db words) {wordOffset fbOffset : WordOffset}
    {placed : WordDb} {success : Bool} (stored : Stored db wordOffset word)
    (place : newFbOffset env { db with lastWordid := db.lastWordid + 1 }
      (db.lastWordid + 1) = some (placed, some fbOffset))
    (write : fixedWrite placed fbOffset wordOffset = some (after, success)) :
    success = true ∧ Registered md5 after (words ++ [word]) := by
  have within : db.lastWordid / numWordsPerBlock < maxBlockNum := by
    have bound := newFbOffset_within place
    rwa [Nat.add_sub_cancel] at bound
  have outcome := fixed.newFbOffset within env
  cases next : nextFixedBlock env db with
  | none =>
    rw [next] at outcome
    cases outcome.symm.trans place
  | some block =>
    rw [next] at outcome
    cases outcome.symm.trans place
    cases (fixedWrite_placeRecord within block wordOffset).symm.trans write
    exact ⟨rfl, indexed.recordWord block wordOffset,
      fixed.recordWord within next stored⟩

theorem Registered.getNewWordid (registered : Registered md5 db words)
    (ran : getNewWordid md5 env db word = some (after, result))
    (succeeded : result ≠ .fail) :
    result = ((Call.getNewWordid word).answer nonempty words).2 ∧
      Registered md5 after ((Call.getNewWordid word).answer nonempty words).1 := by
  have indexed := registered.indexed
  have short := cutWord_short word
  have last := registered.fixed.last
  cases getNewWordid_cases ran with
  | empty nothing => simp [Call.answer, nonempty, nothing, registered]
  | refused => exact absurd rfl succeeded
  | full => exact absurd rfl succeeded
  | unmapped => exact absurd rfl succeeded
  | old proper found =>
    have registrable : nonempty (cutWord word) = true := by
      simpa [nonempty] using proper
    cases lexiconIndexPut_cutWord indexed.storage found with
    | old probe added =>
      cases position : words.idxOf? (cutWord word) with
      | none =>
        have fresh : cutWord word ∉ words :=
          List.idxOf?_eq_none_iff.mp position
        rcases indexed.add_new probe short fresh added with bad | ⟨bad, _⟩
        · cases bad
        · cases bad
      | some place =>
        have bound :=
          (List.getElem?_eq_some_iff.mp (getElem?_of_idxOf? position)).1
        cases (indexed.add_old probe short position (by omega)
          env).symm.trans added
        simp only [Call.answer, registrable, if_true, position, true_and]
        have same := probe.hash_eq
        rw [← same]
        exact registered.probed probe
  | written proper found checked place write =>
    have registrable : nonempty (cutWord word) = true := by
      simpa [nonempty] using proper
    cases lexiconIndexPut_cutWord indexed.storage found with
    | stored probe added grew =>
      cases position : words.idxOf? (cutWord word) with
      | some place =>
        have bound :=
          (List.getElem?_eq_some_iff.mp (getElem?_of_idxOf? position)).1
        cases (indexed.add_old probe short position (by omega)
          env).symm.trans added
      | none =>
        have fresh : cutWord word ∉ words :=
          List.idxOf?_eq_none_iff.mp position
        rcases indexed.add_new probe short fresh added with
          bad | ⟨_, inserted⟩
        · cases bad
        · rw [last] at inserted
          have grownIndexed := indexed.grown probe short fresh inserted grew
          have grownFixed := registered.fixed.transfer grew.kept
            grew.lastWordid_eq grew.allocFixed_eq grew.fixedBlock_eq
          obtain ⟨rfl, final⟩ := Registered.record grownIndexed grownFixed
            grew.stored place write
          simp only [Call.answer, registrable, if_true, position]
          exact ⟨by rw [grownFixed.last], final⟩

theorem Registered.call (registered : Registered md5 db words) {call : Call}
    (ran : call.run md5 env db = some (after, result))
    (succeeded : result ≠ .fail) :
    result = (call.answer nonempty words).2 ∧
      Registered md5 after (call.answer nonempty words).1 := by
  cases call with
  | getNewWordid word => exact registered.getNewWordid ran succeeded
  | getWordid word => exact registered.getWordid ran succeeded

theorem Registered.run (registered : Registered md5 db words)
    {calls : List (Env × Call)} {results : List WordResult}
    (ran : runCalls md5 db calls = some (after, results))
    (succeeded : .fail ∉ results) :
    results = (answers nonempty words (calls.map Prod.snd)).2 ∧
      Registered md5 after (answers nonempty words (calls.map Prod.snd)).1 := by
  induction calls generalizing db words results with
  | nil =>
    cases ran
    exact ⟨rfl, registered⟩
  | cons head rest induction =>
    obtain ⟨env, call⟩ := head
    simp only [runCalls, Option.bind_eq_bind, Option.bind_eq_some_iff] at ran
    obtain ⟨⟨next, result⟩, stepped, ⟨final, others⟩, ranRest, same⟩ := ran
    cases same
    obtain ⟨answered, stays⟩ := registered.call stepped
      (fun failed => succeeded (by rw [failed]; exact List.mem_cons_self))
    obtain ⟨restAnswered, final⟩ := induction stays ranRest
      (fun member => succeeded (List.mem_cons_of_mem _ member))
    simp only [List.map_cons, answers]
    exact ⟨by rw [answered, restAnswered], final⟩

theorem Registered.getWordByWordid (registered : Registered md5 db words)
    {index : Nat} (at_index : words[index]? = some word) :
    getWordByWordid db (index + 1) = .success word := by
  obtain ⟨key, pointed, stored⟩ := registered.fixed.entries index word at_index
  have bound := (List.getElem?_eq_some_iff.mp at_index).1
  have last := registered.fixed.last
  have within : ¬ (index + 1 = 0 ∨ db.lastWordid < index + 1) := by omega
  obtain ⟨block, mapped, _⟩ := stored.held
  unfold Lexicon.getWordByWordid
  rw [if_neg within, Nat.add_sub_cancel]
  have pointedAt : offset2ptrFixed db (WordOffset.pack (index / numWordsPerBlock)
      (index % numWordsPerBlock * internalWordSize)) = some key := pointed
  simp only [pointedAt, offset2ptrVariable,
    if_neg (Nat.not_le.mpr stored.allocated), mapped,
    stored.stringAt registered.indexed.storage]

end Steps

/-- The database `open_word_db` creates around a new hash. -/
def createdDb (hash : Table WordOffset Nat) : WordDb where
  lastWordid := 0
  allocFixedBlockNum := 1
  allocVariableBlockNum := 1
  fixedBlock := Function.update (fun _ => none) 0 (some emptyFixedBlock)
  variableBlock := Function.update (fun _ => none) 0
    (some { usedBytes := 0, data := fun _ => 0 })
  hash := hash

theorem openWordDb_eq_some {md5 : List UInt8 → HashKey} {env : Env} {db : WordDb}
    (opened : openWordDb md5 env = some db) :
    ∃ callbacks hash, hashOpen callbacks 0 .sorted = some hash ∧
      db = createdDb hash := by
  unfold openWordDb at opened
  simp only at opened
  split at opened
  case h_1 => cases opened
  case h_2 hash created =>
    refine ⟨_, hash, created, ?_⟩
    cases mapFixed : env.mmapBlock .typeFixed 0 with
    | false => simp [loadBlock, mapFixed, maxBlockNum] at opened
    | true =>
      cases mapVariable : env.mmapBlock .typeVariable 0 with
      | false => simp [loadBlock, mapFixed, mapVariable, maxBlockNum] at opened
      | true =>
        simp only [loadBlock, mapFixed, mapVariable, maxBlockNum,
          show ¬ 254 ≤ 0 by decide, if_false, if_true,
          Option.some.injEq] at opened
        exact opened.symm

theorem createdDb_storage (hash : Table WordOffset Nat) :
    StorageInv (createdDb hash) where
  alloc_pos := Nat.le_refl 1
  alloc_le := (by decide : 1 ≤ maxBlockNum)
  mapped := by
    intro blockIdx lower
    obtain rfl : blockIdx = 0 := by simpa [createdDb] using lower
    exact ⟨{ usedBytes := 0, data := fun _ => 0 }, by simp [createdDb],
      Nat.zero_le _⟩

theorem openWordDb_registered {md5 : List UInt8 → HashKey} {env : Env}
    {db : WordDb} (opened : openWordDb md5 env = some db) :
    Registered md5 db [] := by
  obtain ⟨callbacks, hash, created, rfl⟩ := openWordDb_eq_some opened
  obtain ⟨formed, empty, _⟩ := hashOpen_formed created
  have nothing : allSlots (createdDb hash).hash = [] := empty
  refine ⟨⟨createdDb_storage hash, formed, ?_, ?_, ?_, List.nodup_nil⟩,
    rfl, rfl, (by decide : 1 ≤ maxBlockNum), ?_, by simp⟩
  · simp [nothing]
  · simp [nothing]
  · simp [nothing]
  · intro blockIdx
    cases blockIdx with
    | zero => simp [createdDb]
    | succ blockIdx => simp [createdDb]

theorem runCalls_bijection {md5 : List UInt8 → HashKey} {env : Env}
    {start db : WordDb} {calls : List (Env × Call)} {results : List WordResult}
    (opened : openWordDb md5 env = some start)
    (ran : runCalls md5 start calls = some (db, results))
    (succeeded : .fail ∉ results) :
    let spec := answers nonempty [] (calls.map Prod.snd)
    results = spec.2 ∧ spec.1.Nodup ∧ db.lastWordid = spec.1.length ∧
      ∀ index word, spec.1[index]? = some word →
        getWordByWordid db (index + 1) = .success word := by
  intro spec
  obtain ⟨answered, registered⟩ :=
    (openWordDb_registered opened).run ran succeeded
  exact ⟨answered, registered.indexed.nodup, registered.fixed.last,
    fun index word at_index => registered.getWordByWordid at_index⟩

def allMapped : Env where
  mmapBlock := fun _ _ => true
  mmapHash := fun _ => true

/-- The first four bytes of the digests of `a` and of the empty string. -/
def md5Samples (string : List UInt8) : HashKey :=
  if string = [97] then ![0x0c, 0xc1, 0x75, 0xb9]
  else ![0xd4, 0x1d, 0x8c, 0xd9]

theorem runCalls_bijection_sample :
    ∃ start db, openWordDb md5Samples allMapped = some start ∧
      runCalls md5Samples start [(allMapped, .getNewWordid [97])] =
        some (db, [.newRegistered 1]) ∧
      getWordByWordid db 1 = .success [97] := by
  have replied : ((openWordDb md5Samples allMapped).bind fun start =>
      runCalls md5Samples start [(allMapped, .getNewWordid [97])]).map Prod.snd =
      some [.newRegistered 1] := by
    decide +kernel
  obtain ⟨⟨db, results⟩, bound, same⟩ := Option.map_eq_some_iff.mp replied
  obtain ⟨start, opened, ran⟩ := Option.bind_eq_some_iff.mp bound
  cases same
  obtain ⟨_, _, _, byId⟩ := runCalls_bijection opened ran (by decide)
  exact ⟨start, db, opened, ran, byId 0 [97] rfl⟩

/-- The empty string is refused where the plain reading registers it. -/
theorem empty_word_not_registered :
    ¬ ∀ (md5 : List UInt8 → HashKey) (env : Env) (start db : WordDb)
      (calls : List (Env × Call)) (results : List WordResult),
      openWordDb md5 env = some start →
      runCalls md5 start calls = some (db, results) → .fail ∉ results →
      results = (answers (fun _ => true) [] (calls.map Prod.snd)).2 := by
  intro claim
  cases opened : openWordDb md5Samples allMapped with
  | none =>
    have exists_db : (openWordDb md5Samples allMapped).isSome = true := by
      decide +kernel
    rw [opened] at exists_db
    cases exists_db
  | some start =>
    have answered := claim md5Samples allMapped start start
      [(allMapped, .getNewWordid [])] [.notRegistered] opened rfl (by decide)
    exact absurd answered (by decide)

end Wisebot.Lexicon
