import Wisebot.Did.DidDb

namespace Wisebot.DocId

open Wisebot.Lib Wisebot.Hash

/-! Runs of `get_new_doc_id` and `get_doc_id` against the keys that ids were
handed out for, the newest first. -/

def latestId : (handed : List (List UInt8)) → (key : List UInt8) → Option Nat
  | [], _ => none
  | newest :: older, key =>
    if newest = key then some (older.length + 1) else latestId older key

def maxDocid : Nat := 2 ^ 32 - 1

def handOut (handed : List (List UInt8)) (key : List UInt8) : DocidResult :=
  match latestId handed key with
  | some old => .oldRegistered (handed.length + 1) old
  | none => .newRegistered (handed.length + 1) (handed.length + 1)

def Call.answer (handed : List (List UInt8)) : Call → List (List UInt8) × DocidResult
  | .getNewDocId key =>
    if handed.length = maxDocid then (handed, .overflow)
    else (cutKey key :: handed, handOut handed (cutKey key))
  | .getDocId key =>
    match latestId handed (cutKey key) with
    | some docid => (handed, .found docid)
    | none => (handed, .notRegistered)

def answers : List (List UInt8) → List Call → List (List UInt8) × List DocidResult
  | handed, [] => (handed, [])
  | handed, call :: rest =>
    let (next, result) := call.answer handed
    let (final, results) := answers next rest
    (final, result :: results)

def DocidResult.handedOut : DocidResult → Option Nat
  | .newRegistered docid _ => some docid
  | .oldRegistered docid _ => some docid
  | _ => none

theorem latestId_le {handed : List (List UInt8)} {key : List UInt8} {docid : Nat}
    (latest : latestId handed key = some docid) : docid ≤ handed.length := by
  induction handed with
  | nil => cases latest
  | cons newest older induction =>
    rw [latestId] at latest
    split at latest
    · cases latest
      exact le_rfl
    · exact (induction latest).trans (Nat.le_succ _)

theorem hashCallbacks_laws (md5 : List UInt8 → HashKey) (env : Env) (db : DidDb) :
    KeyLaws (hashCallbacks md5 env db) :=
  .of_strings (stringAt db) (fun _ => rfl) fun _ _ => rfl

/-- The slots of the hash hold each key once, under its latest id. -/
structure Latest (md5 : List UInt8 → HashKey) (string : DidOffset → List UInt8)
    (slots : List (Slot DidOffset Nat)) (handed : List (List UInt8)) : Prop where
  hashed : ∀ slot ∈ slots, slot.hashkey = md5 (string slot.key)
  distinct : slots.Pairwise fun first second => string first.key ≠ string second.key
  latest : ∀ slot ∈ slots, latestId handed (string slot.key) = some slot.data
  complete : ∀ key docid, latestId handed key = some docid →
    ∃ slot ∈ slots, string slot.key = key

namespace Latest

variable {md5 : List UInt8 → HashKey} {string : DidOffset → List UInt8}
  {slots other : List (Slot DidOffset Nat)} {handed : List (List UInt8)}

theorem perm (held : Latest md5 string slots handed) (perm : other.Perm slots) :
    Latest md5 string other handed where
  hashed := fun slot member => held.hashed slot (perm.mem_iff.mp member)
  distinct := (perm.pairwise_iff fun differ => Ne.symm differ).mpr held.distinct
  latest := fun slot member => held.latest slot (perm.mem_iff.mp member)
  complete := by
    intro key docid latest
    obtain ⟨slot, member, same⟩ := held.complete key docid latest
    exact ⟨slot, perm.mem_iff.mpr member, same⟩

theorem congr {string' : DidOffset → List UInt8} (held : Latest md5 string slots handed)
    (same : ∀ slot ∈ slots, string' slot.key = string slot.key) :
    Latest md5 string' slots handed where
  hashed := by
    intro slot member
    rw [same slot member]
    exact held.hashed slot member
  distinct := by
    refine held.distinct.imp_of_mem ?_
    intro first second firstMember secondMember differ
    rw [same first firstMember, same second secondMember]
    exact differ
  latest := by
    intro slot member
    rw [same slot member]
    exact held.latest slot member
  complete := by
    intro key docid latest
    obtain ⟨slot, member, isKey⟩ := held.complete key docid latest
    exact ⟨slot, member, (same slot member).trans isKey⟩

theorem insert (held : Latest md5 string slots handed) (slot : Slot DidOffset Nat)
    (hashed : slot.hashkey = md5 (string slot.key))
    (fresh : latestId handed (string slot.key) = none)
    (isNext : slot.data = handed.length + 1) :
    Latest md5 string (slot :: slots) (string slot.key :: handed) where
  hashed := by
    intro member inSlots
    rcases List.mem_cons.mp inSlots with rfl | older
    · exact hashed
    · exact held.hashed member older
  distinct := by
    refine List.pairwise_cons.mpr ⟨?_, held.distinct⟩
    intro member older same
    rw [same, held.latest member older] at fresh
    cases fresh
  latest := by
    intro member inSlots
    rcases List.mem_cons.mp inSlots with rfl | older
    · rw [latestId, if_pos rfl, isNext]
    · have differ : string slot.key ≠ string member.key := by
        intro same
        rw [same, held.latest member older] at fresh
        cases fresh
      rw [latestId, if_neg differ]
      exact held.latest member older
  complete := by
    intro key docid latest
    by_cases same : string slot.key = key
    · exact ⟨slot, List.mem_cons_self, same⟩
    · rw [latestId, if_neg same] at latest
      obtain ⟨member, older, isKey⟩ := held.complete key docid latest
      exact ⟨member, List.mem_cons_of_mem _ older, isKey⟩

theorem update {slot : Slot DidOffset Nat} (held : Latest md5 string (slot :: slots) handed) :
    Latest md5 string ({ slot with data := handed.length + 1 } :: slots)
      (string slot.key :: handed) where
  hashed := by
    intro member inSlots
    rcases List.mem_cons.mp inSlots with rfl | older
    · exact held.hashed slot List.mem_cons_self
    · exact held.hashed member (List.mem_cons_of_mem _ older)
  distinct := List.pairwise_cons.mpr (List.pairwise_cons.mp held.distinct)
  latest := by
    intro member inSlots
    rcases List.mem_cons.mp inSlots with rfl | older
    · rw [latestId, if_pos rfl]
    · have differ := (List.pairwise_cons.mp held.distinct).1 member older
      rw [latestId, if_neg differ]
      exact held.latest member (List.mem_cons_of_mem _ older)
  complete := by
    intro key docid latest
    by_cases same : string slot.key = key
    · exact ⟨_, List.mem_cons_self, same⟩
    · rw [latestId, if_neg same] at latest
      obtain ⟨member, inSlots, isKey⟩ := held.complete key docid latest
      rcases List.mem_cons.mp inSlots with rfl | older
      · exact absurd isKey same
      · exact ⟨member, List.mem_cons_of_mem _ older, isKey⟩

end Latest

structure Indexed (md5 : List UInt8 → HashKey) (db : DidDb) (handed : List (List UInt8)) :
    Prop where
  storage : StorageInv db
  formed : WellFormed db.hash
  stored : ∀ slot ∈ allSlots db.hash, Stored db slot.key (stringAt db slot.key)
  held : Latest md5 (stringAt db) (allSlots db.hash) handed
  last : db.lastDid = handed.length
  bounded : handed.length ≤ maxDocid

section Indexed

variable {md5 : List UInt8 → HashKey} {env : Env} {db after probed : DidDb}
  {handed : List (List UInt8)} {offset : DidOffset} {string : List UInt8}

theorem Indexed.stringAt_eq (indexed : Indexed md5 db handed) {other : DidDb}
    (storage : StorageInv other)
    (kept : ∀ offset string, Stored db offset string → Stored other offset string)
    {slot : Slot DidOffset Nat} (member : slot ∈ allSlots db.hash) :
    stringAt other slot.key = stringAt db slot.key :=
  (kept _ _ (indexed.stored slot member)).stringAt storage

theorem Indexed.of_probed (indexed : Indexed md5 db handed)
    (probe : Probed db probed offset string) : Indexed md5 probed handed := by
  have same : ∀ slot ∈ allSlots db.hash, stringAt probed slot.key = stringAt db slot.key :=
    fun slot member => indexed.stringAt_eq probe.storage probe.kept member
  refine ⟨probe.storage, probe.hash_eq ▸ indexed.formed, ?_, ?_, probe.lastDid_eq ▸ indexed.last,
    indexed.bounded⟩
  · intro slot member
    rw [probe.hash_eq] at member
    rw [same slot member]
    exact probe.kept _ _ (indexed.stored slot member)
  · rw [probe.hash_eq]
    exact indexed.held.congr same

theorem Indexed.keyed (indexed : Indexed md5 db handed) (env : Env) :
    Keyed (hashCallbacks md5 env db) (allSlots db.hash) where
  hashkey_eq := indexed.held.hashed
  distinct := by
    refine indexed.held.distinct.imp ?_
    intro first second differ
    simpa [hashCallbacks] using differ

theorem Indexed.present (indexed : Indexed md5 db handed) {docid : Nat}
    (latest : latestId handed (stringAt db offset) = some docid) (env : Env) :
    ∃ slot ∈ allSlots db.hash, (hashCallbacks md5 env db).keyEq slot.key offset = true ∧
      stringAt db slot.key = stringAt db offset ∧ slot.data = docid := by
  obtain ⟨slot, member, same⟩ := indexed.held.complete _ docid latest
  refine ⟨slot, member, by simp [hashCallbacks, same], same, ?_⟩
  have isLatest := indexed.held.latest slot member
  rw [same, latest] at isLatest
  exact (Option.some.inj isLatest).symm

theorem Indexed.absent (indexed : Indexed md5 db handed)
    (latest : latestId handed (stringAt db offset) = none) (env : Env) :
    Absent (hashCallbacks md5 env db) db.hash offset := by
  intro slot member
  simp only [hashCallbacks, beq_eq_false_iff_ne]
  intro same
  have isLatest := indexed.held.latest slot member
  rw [same, latest] at isLatest
  cases isLatest

theorem Indexed.search (indexed : Indexed md5 db handed) (env : Env) (offset : DidOffset) :
    hashSearch (hashCallbacks md5 env db) db.hash offset =
      some (latestId handed (stringAt db offset)) := by
  cases latest : latestId handed (stringAt db offset) with
  | none => exact hashSearch_absent indexed.formed (indexed.absent latest env)
  | some docid =>
    obtain ⟨slot, member, equal, _, data⟩ := indexed.present latest env
    rw [hashSearch_present (hashCallbacks_laws md5 env db) indexed.formed (indexed.keyed env)
      member equal, data]

/-- An id for a key that has one: the hash gives the old id and takes the new. -/
theorem Indexed.replace (indexed : Indexed md5 db handed) {docid : Nat}
    (latest : latestId handed (stringAt db offset) = some docid) (env : Env)
    (room : handed.length < maxDocid) :
    ∃ hash, hashAdd (hashCallbacks md5 env db) db.hash offset (handed.length + 1) =
        some (db.hash, .collision docid) ∧
      hashUpdate (hashCallbacks md5 env db) db.hash offset (handed.length + 1) =
        some (hash, true) ∧
      Indexed md5 { db with hash := hash, lastDid := handed.length + 1 }
        (stringAt db offset :: handed) := by
  have laws := hashCallbacks_laws md5 env db
  obtain ⟨slot, member, equal, same, data⟩ := indexed.present latest env
  have older := latestId_le latest
  obtain ⟨hash, rest, updated, formed, before, now, _⟩ :=
    hashUpdate_present laws (handed.length + 1) indexed.formed (indexed.keyed env) member equal
  refine ⟨hash, ?_, updated, ⟨⟨indexed.storage.alloc_pos, indexed.storage.alloc_le,
    indexed.storage.mapped⟩, formed, ?_, ?_, rfl, room⟩⟩
  · rw [hashAdd, hashAddFuel_present laws _ _ indexed.formed (indexed.keyed env) member equal,
      data, if_neg (by omega)]
  · intro kept inHash
    have inside := now.mem_iff.mp inHash
    have stays : ∀ old ∈ allSlots db.hash, old.key = kept.key →
        Stored db kept.key (stringAt db kept.key) := by
      intro old oldMember sameKey
      rw [← sameKey]
      exact indexed.stored old oldMember
    have stored : Stored db kept.key (stringAt db kept.key) := by
      rcases List.mem_cons.mp inside with rfl | inRest
      · exact stays slot member rfl
      · exact stays kept (before.mem_iff.mpr (List.mem_cons_of_mem _ inRest)) rfl
    exact ⟨stored.allocated, stored.held⟩
  · have held := (indexed.held.perm before.symm).update
    rw [same] at held
    exact held.perm now

theorem Indexed.grown (indexed : Indexed md5 db handed) {grown : DidDb}
    {hash : Table DidOffset Nat} (probe : Probed db probed offset string)
    (fresh : latestId handed string = none) (room : handed.length < maxDocid)
    (inserted : Inserted (hashCallbacks md5 env probed) db.hash offset (handed.length + 1) hash)
    (grew : Grown db grown hash offset string) :
    Indexed md5 { grown with lastDid := handed.length + 1 } (string :: handed) := by
  have same : ∀ slot ∈ allSlots db.hash, stringAt grown slot.key = stringAt db slot.key :=
    fun slot member => indexed.stringAt_eq grew.storage grew.kept member
  have newString := grew.stored.stringAt grew.storage
  have slots := inserted.slots
  rw [← grew.hash_eq] at slots
  refine ⟨⟨grew.storage.alloc_pos, grew.storage.alloc_le, grew.storage.mapped⟩,
    grew.hash_eq ▸ inserted.formed, ?_, ?_, rfl, room⟩
  · intro slot member
    have stored : Stored grown slot.key (stringAt grown slot.key) := by
      rcases List.mem_cons.mp (slots.mem_iff.mp member) with rfl | older
      · simp only [newSlot, newString]
        exact grew.stored
      · rw [same slot older]
        exact grew.kept _ _ (indexed.stored slot older)
    exact ⟨stored.allocated, stored.held⟩
  · have held := (indexed.held.congr same).insert
      (newSlot (hashCallbacks md5 env probed) offset (handed.length + 1))
      (by simp only [newSlot, hashCallbacks, newString, probe.stringAt])
      (by simp only [newSlot, newString, fresh]) rfl
    simp only [newSlot, newString] at held
    exact held.perm slots

theorem Indexed.getDocId (indexed : Indexed md5 db handed) {key : List UInt8}
    {result : DocidResult} (ran : getDocId md5 env db key = some (after, result))
    (succeeded : result ≠ .fail) :
    result = ((Call.getDocId key).answer handed).2 ∧
      Indexed md5 after ((Call.getDocId key).answer handed).1 := by
  simp only [DocId.getDocId, didHashFind] at ran
  split at ran
  case h_1 =>
    cases ran
    exact absurd rfl succeeded
  case h_2 assigned offset placed =>
    have assign := blockAssignOffset_assigned indexed.storage
      (Nat.succ_le_succ (cutKey_short key)) placed
    obtain ⟨probed, written, probe⟩ := assign.blockWriteData (cutKey_nonzero key)
    have inProbed := indexed.of_probed probe
    simp only [written, inProbed.search env offset, probe.stringAt] at ran
    simp only [Call.answer]
    cases latest : latestId handed (cutKey key) with
    | none =>
      simp only [latest, Option.some.injEq, Prod.mk.injEq] at ran
      obtain ⟨rfl, rfl⟩ := ran
      exact ⟨rfl, inProbed⟩
    | some docid =>
      simp only [latest, Option.some.injEq, Prod.mk.injEq] at ran
      obtain ⟨rfl, rfl⟩ := ran
      exact ⟨rfl, inProbed⟩

theorem Indexed.didHashPut (indexed : Indexed md5 db handed) {key : List UInt8}
    {result : DocidResult} (room : handed.length < maxDocid)
    (ran : didHashPut md5 env db key (handed.length + 1) = some (after, result))
    (succeeded : result ≠ .fail) :
    after.lastDid = handed.length ∧
      Indexed md5 { after with lastDid := handed.length + 1 } (cutKey key :: handed) ∧
      result = handOut handed (cutKey key) := by
  rw [handOut]
  simp only [DocId.didHashPut, if_neg (Nat.succ_ne_zero handed.length)] at ran
  split at ran
  case h_1 =>
    cases ran
    exact absurd rfl succeeded
  case h_2 assigned offset placed =>
    have assign := blockAssignOffset_assigned indexed.storage
      (Nat.succ_le_succ (cutKey_short key)) placed
    obtain ⟨probed, written, probe⟩ := assign.blockWriteData (cutKey_nonzero key)
    have inProbed := indexed.of_probed probe
    simp only [written] at ran
    cases latest : latestId handed (cutKey key) with
    | some docid =>
      have isLatest : latestId handed (stringAt probed offset) = some docid := by
        rw [probe.stringAt, latest]
      obtain ⟨hash, added, updated, replaced⟩ := inProbed.replace isLatest env room
      simp only [added, updated, Option.some.injEq, Prod.mk.injEq] at ran
      obtain ⟨rfl, rfl⟩ := ran
      rw [probe.stringAt] at replaced
      exact ⟨inProbed.last, replaced, rfl⟩
    | none =>
      have absent : Absent (hashCallbacks md5 env probed) probed.hash offset :=
        inProbed.absent (by rw [probe.stringAt, latest]) env
      cases added : hashAdd (hashCallbacks md5 env probed) probed.hash offset
          (handed.length + 1) with
      | none => simp [added] at ran
      | some outcome =>
        obtain ⟨hash, reply⟩ := outcome
        rcases hashAddFuel_spec (hashCallbacks_laws md5 env probed) inProbed.formed
          (inProbed.keyed env) added with ⟨slot, member, equal, _⟩ | ⟨_, rfl | ⟨rfl, inserted⟩⟩
        · rw [absent slot member] at equal
          cases equal
        · simp only [added, Option.some.injEq, Prod.mk.injEq] at ran
          exact absurd ran.2.symm succeeded
        · obtain ⟨grown, increased, grew⟩ := probe.increase hash
          simp only [added, increased, Option.some.injEq, Prod.mk.injEq] at ran
          obtain ⟨rfl, rfl⟩ := ran
          rw [probe.hash_eq] at inserted
          exact ⟨grew.lastDid_eq.trans indexed.last,
            indexed.grown probe latest room inserted grew, rfl⟩

theorem Indexed.getNewDocId (indexed : Indexed md5 db handed) {key : List UInt8}
    {result : DocidResult} (ran : getNewDocId md5 env db key = some (after, result))
    (succeeded : result ≠ .fail) :
    result = ((Call.getNewDocId key).answer handed).2 ∧
      Indexed md5 after ((Call.getNewDocId key).answer handed).1 := by
  have last := indexed.last
  have bounded := indexed.bounded
  simp only [maxDocid] at bounded
  simp only [DocId.getNewDocId, last] at ran
  by_cases full : handed.length = maxDocid
  · have wraps : (handed.length + 1) % 2 ^ 32 = 0 := by
      rw [full]
      rfl
    simp only [wraps, DocId.didHashPut, if_true, Option.some.injEq, Prod.mk.injEq] at ran
    obtain ⟨rfl, rfl⟩ := ran
    rw [Call.answer, if_pos full]
    exact ⟨rfl, indexed⟩
  · have room : handed.length < maxDocid := lt_of_le_of_ne bounded full
    have plain : (handed.length + 1) % 2 ^ 32 = handed.length + 1 := by
      simp only [maxDocid] at room
      omega
    rw [plain] at ran
    cases put : DocId.didHashPut md5 env db key (handed.length + 1) with
    | none => simp [put] at ran
    | some outcome =>
      obtain ⟨next, reply⟩ := outcome
      by_cases failed : reply = .fail
      · subst failed
        simp only [put, Option.some.injEq, Prod.mk.injEq] at ran
        exact absurd ran.2.symm succeeded
      · obtain ⟨sameLast, grown, isReply⟩ := indexed.didHashPut room put failed
        simp only [Call.answer, if_neg full]
        rw [handOut] at isReply ⊢
        cases latest : latestId handed (cutKey key) with
        | none =>
          rw [latest] at isReply
          simp only [put, isReply, sameLast, plain, Option.some.injEq, Prod.mk.injEq] at ran
          obtain ⟨rfl, rfl⟩ := ran
          exact ⟨rfl, grown⟩
        | some old =>
          rw [latest] at isReply
          simp only [put, isReply, sameLast, plain, Option.some.injEq, Prod.mk.injEq] at ran
          obtain ⟨rfl, rfl⟩ := ran
          exact ⟨rfl, grown⟩

theorem Indexed.run (indexed : Indexed md5 db handed) {calls : List (Env × Call)}
    {results : List DocidResult} (ran : runCalls md5 db calls = some (after, results))
    (succeeded : .fail ∉ results) :
    results = (answers handed (calls.map Prod.snd)).2 ∧
      Indexed md5 after (answers handed (calls.map Prod.snd)).1 := by
  induction calls generalizing db handed results with
  | nil =>
    cases ran
    exact ⟨rfl, indexed⟩
  | cons head rest induction =>
    obtain ⟨env, call⟩ := head
    simp only [runCalls, Option.bind_eq_bind, Option.bind_eq_some_iff] at ran
    obtain ⟨⟨next, result⟩, stepped, ⟨final, others⟩, ranRest, same⟩ := ran
    cases same
    have notFailed : result ≠ .fail := by
      rintro rfl
      exact succeeded List.mem_cons_self
    have step : result = (call.answer handed).2 ∧ Indexed md5 next (call.answer handed).1 := by
      cases call with
      | getNewDocId key => exact indexed.getNewDocId stepped notFailed
      | getDocId key => exact indexed.getDocId stepped notFailed
    obtain ⟨answered, stays⟩ := step
    obtain ⟨restAnswered, finalIndexed⟩ := induction stays ranRest
      (fun member => succeeded (List.mem_cons_of_mem _ member))
    simp only [List.map_cons, answers]
    exact ⟨by rw [answered, restAnswered], finalIndexed⟩

end Indexed

/-! From the database `open_did_db` creates. -/

theorem openDidDb_indexed {md5 : List UInt8 → HashKey} {env : Env} {db : DidDb}
    (opened : openDidDb md5 env = some db) : Indexed md5 db [] := by
  simp only [openDidDb] at opened
  split at opened
  case h_1 => cases opened
  case h_2 hash created =>
    obtain ⟨formed, empty, _⟩ := hashOpen_formed created
    cases mapped : env.mmapBlock 0 with
    | false => simp [blockLoad, mapped, didMaxBlockNum] at opened
    | true =>
      simp only [blockLoad, mapped, didMaxBlockNum, show ¬ 256 ≤ 0 by decide, if_false,
        if_true, Option.some.injEq] at opened
      subst opened
      refine ⟨⟨le_rfl, (by decide : 1 ≤ didMaxBlockNum), ?_⟩, formed, by simp [empty],
        ⟨by simp [empty], by simp [empty], by simp [empty], by simp [latestId]⟩, rfl,
        Nat.zero_le _⟩
      intro blockIdx lower
      obtain rfl : blockIdx = 0 := by simpa using lower
      exact ⟨.created, by simp, Nat.zero_le _⟩

theorem Call.answer_handedOut (handed : List (List UInt8)) (call : Call) :
    (call.answer handed).1 = handed ∧ (call.answer handed).2.handedOut = none ∨
      (call.answer handed).1.length = handed.length + 1 ∧
        (call.answer handed).2.handedOut = some (handed.length + 1) := by
  cases call with
  | getNewDocId key =>
    rw [Call.answer]
    split
    · exact .inl ⟨rfl, rfl⟩
    · refine .inr ⟨List.length_cons, ?_⟩
      rw [handOut]
      split <;> rfl
  | getDocId key =>
    rw [Call.answer]
    split <;> exact .inl ⟨rfl, rfl⟩

theorem answers_handedOut (handed : List (List UInt8)) (calls : List Call) :
    ∃ count, (answers handed calls).1.length = handed.length + count ∧
      (answers handed calls).2.filterMap DocidResult.handedOut =
        List.range' (handed.length + 1) count := by
  induction calls generalizing handed with
  | nil => exact ⟨0, rfl, rfl⟩
  | cons call rest induction =>
    obtain ⟨count, length, ids⟩ := induction (call.answer handed).1
    rcases Call.answer_handedOut handed call with ⟨same, nothing⟩ | ⟨longer, next⟩
    · refine ⟨count, ?_, ?_⟩
      · rw [same] at length
        simpa only [answers, same] using length
      · rw [same] at ids
        simp only [answers, List.filterMap_cons, nothing, same, ids]
    · refine ⟨count + 1, ?_, ?_⟩
      · rw [longer] at length
        simp only [answers, length]
        omega
      · rw [longer] at ids
        simp only [answers, List.filterMap_cons, next, ids]
        rw [List.range'_succ]

/-- Calls of which none fails answer as the list of keys says, and the ids they
hand out are `1, 2, 3, …` -/
theorem runCalls_docids {md5 : List UInt8 → HashKey} {env : Env} {start db : DidDb}
    {calls : List (Env × Call)} {results : List DocidResult}
    (opened : openDidDb md5 env = some start)
    (ran : runCalls md5 start calls = some (db, results)) (succeeded : .fail ∉ results) :
    results = (answers [] (calls.map Prod.snd)).2 ∧
      results.filterMap DocidResult.handedOut = List.range' 1 db.lastDid := by
  obtain ⟨answered, indexed⟩ := (openDidDb_indexed opened).run ran succeeded
  obtain ⟨count, length, ids⟩ := answers_handedOut [] (calls.map Prod.snd)
  have last := indexed.last
  refine ⟨answered, ?_⟩
  rw [answered, ids, last, length]
  simp

def allMapped : Env where
  mmapBlock := fun _ => true
  mmapHash := fun _ => true

/-- The first four bytes of the digests of `a` and of the empty string. -/
def md5Samples (string : List UInt8) : HashKey :=
  if string = [97] then ![0x0c, 0xc1, 0x75, 0xb9] else ![0xd4, 0x1d, 0x8c, 0xd9]

theorem runCalls_docids_sample :
    ∃ start db, openDidDb md5Samples allMapped = some start ∧
      runCalls md5Samples start [(allMapped, .getNewDocId [97]), (allMapped, .getDocId [])] =
          some (db, [.newRegistered 1 1, .notRegistered]) ∧
      [1] = List.range' 1 db.lastDid := by
  have replied : ((openDidDb md5Samples allMapped).bind fun start =>
      runCalls md5Samples start [(allMapped, .getNewDocId [97]), (allMapped, .getDocId [])]).map Prod.snd =
      some [.newRegistered 1 1, .notRegistered] := by
    decide +kernel
  obtain ⟨⟨db, results⟩, bound, same⟩ := Option.map_eq_some_iff.mp replied
  obtain ⟨start, opened, ran⟩ := Option.bind_eq_some_iff.mp bound
  cases same
  obtain ⟨_, ids⟩ := runCalls_docids opened ran (by decide)
  exact ⟨start, db, opened, ran, ids⟩

end Wisebot.DocId
