import Mathlib.Logic.Function.Basic
import Mathlib.Data.List.Perm.Basic
import Mathlib.Algebra.Ring.Nat
import Wisebot.Lib.Transition

namespace Wisebot.Did

open Wisebot.Lib

variable {s next : DidDb} {key : Key} {client : Nat} {result : Result}

/-! Concurrent document registration (`modules/mod_did/mod_did2.c`) over the
Berkeley DB operations of `modules/mod_hash/mod_bdb_hash.c`. The lock of
`get_new_doc_id` covers the counter only, so every database operation of
`bdb_hash_put` is a step of its own. -/

/-- The bytes of `pKey`. -/
abbrev Key := List UInt8

/-- Where one client stands in `get_new_doc_id`. -/
inductive Call where
  | idle
  | overflowed (key : Key)
  | putNoOverwrite (key : Key) (docid : Nat)
  | getOld (key : Key) (docid : Nat)
  | overwrite (key : Key) (docid olddocid : Nat)
  deriving DecidableEq

inductive Result where
  | overflow
  | newRegistered (docid : Nat)
  | oldRegistered (docid olddocid : Nat)
  | fail
  deriving DecidableEq

/-- `last_did` and the database are shared; `done` records the calls that
have returned, newest first. -/
structure DidDb where
  lastDid : Nat
  db : Key → Option Nat
  call : Nat → Call
  done : List (Key × Result)

inductive Event where
  | getNewDocId (client : Nat) (key : Key)
  | advance (client : Nat)

def DidDb.created : DidDb where
  lastDid := 0
  db := fun _ => none
  call := fun _ => .idle
  done := []

def DidDb.goto (s : DidDb) (client : Nat) (call : Call) : DidDb :=
  { s with call := Function.update s.call client call }

def DidDb.finish (s : DidDb) (client : Nat) (key : Key) (result : Result) :
    DidDb :=
  { s.goto client .idle with done := (key, result) :: s.done }

def DidDb.store (s : DidDb) (key : Key) (docid : Nat) : DidDb :=
  { s with db := Function.update s.db key (some docid) }

/-- One atomic step. `last_did` is a `uint32_t`; a call that wrapped it to
zero takes its increment back outside the lock. -/
def DidDb.step (s : DidDb) : Event → Option DidDb
  | .getNewDocId client key =>
    match s.call client with
    | .idle =>
      let docid := (s.lastDid + 1) % 2 ^ 32
      some ({ s with lastDid := docid }.goto client
        (if docid = 0 then .overflowed key
          else .putNoOverwrite key docid))
    | _ => none
  | .advance client =>
    match s.call client with
    | .idle => none
    | .overflowed key =>
      some ({ s with lastDid := (s.lastDid + (2 ^ 32 - 1)) % 2 ^ 32 }.finish
        client key .overflow)
    | .putNoOverwrite key docid =>
      match s.db key with
      | none =>
        some ((s.store key docid).finish client key
          (.newRegistered docid))
      | some _ => some (s.goto client (.getOld key docid))
    | .getOld key docid =>
      match s.db key with
      | none => some (s.finish client key .fail)
      | some olddocid =>
        some (s.goto client (.overwrite key docid olddocid))
    | .overwrite key docid olddocid =>
      some ((s.store key docid).finish client key
        (.oldRegistered docid olddocid))

def Call.key? : Call → Option Key
  | .idle => none
  | .overflowed key => some key
  | .putNoOverwrite key _ => some key
  | .getOld key _ => some key
  | .overwrite key _ _ => some key

def Call.docid? : Call → Option Nat
  | .idle => none
  | .overflowed _ => none
  | .putNoOverwrite _ docid => some docid
  | .getOld _ docid => some docid
  | .overwrite _ docid _ => some docid

def Call.Wrapped : Call → Prop
  | .overflowed _ => True
  | _ => False

def Result.docid? : Result → Option Nat
  | .newRegistered docid => some docid
  | .oldRegistered docid _ => some docid
  | _ => none

def Result.olddocid? : Result → Option Nat
  | .oldRegistered _ olddocid => some olddocid
  | _ => none

/-- The ids a registration of `key` returned to its caller. -/
def DidDb.handedOut (s : DidDb) (key : Key) : List Nat :=
  s.done.filterMap fun entry =>
    if entry.1 = key then entry.2.docid? else none

/-- The ids reported as `olddocid` for `key`. -/
def DidDb.superseded (s : DidDb) (key : Key) : List Nat :=
  s.done.filterMap fun entry =>
    if entry.1 = key then entry.2.olddocid? else none

/-- Every id handed out for the key is the current one or was reported
superseded, exactly once, and the current one is the largest. -/
structure DidDb.Accounted (s : DidDb) (key : Key) : Prop where
  perm : (s.handedOut key).Perm ((s.db key).toList ++ s.superseded key)
  nodup : (s.handedOut key).Nodup
  largest : ∀ docid ∈ s.handedOut key,
    ∃ current, s.db key = some current ∧ docid ≤ current

/-- No call is begun for a key another call is working on, nor while a call
that wrapped the counter has not restored it. -/
def DidDb.Exclusive (s : DidDb) : Event → Prop
  | .getNewDocId _ key => ∀ other,
      (s.call other).key? ≠ some key ∧ ¬ (s.call other).Wrapped
  | .advance _ => True

/-- `top` is the last id the counter gave to a call. -/
structure DidDb.CounterInv (s : DidDb) (top : Nat) : Prop where
  top_lt : top < 2 ^ 32
  settled : (∀ client, ¬ (s.call client).Wrapped) → s.lastDid = top
  wrapped : ∀ client, (s.call client).Wrapped →
    s.lastDid = 0 ∧ top = 2 ^ 32 - 1 ∧
      ∀ other, (s.call other).Wrapped → other = client
  handed_le : ∀ key, ∀ docid ∈ s.handedOut key, docid ≤ top
  pending_le : ∀ client docid, (s.call client).docid? = some docid →
    docid ≤ top

structure DidDb.KeyInv (s : DidDb) (key : Key) : Prop where
  accounted : s.Accounted key
  exclusive : ∀ first second, (s.call first).key? = some key →
    (s.call second).key? = some key → first = second
  above : ∀ client docid, (s.call client).key? = some key →
    (s.call client).docid? = some docid →
    ∀ handed ∈ s.handedOut key, handed < docid
  held : ∀ client docid, s.call client = .getOld key docid →
    (s.db key).isSome
  read : ∀ client docid olddocid,
    s.call client = .overwrite key docid olddocid →
    s.db key = some olddocid

structure DidDb.Inv (s : DidDb) : Prop where
  counter : ∃ top, s.CounterInv top
  keys : ∀ key, s.KeyInv key

section Frame

variable (s : DidDb) (client : Nat) (key other : Key) (call : Call)
  (result : Result)

@[simp] theorem handedOut_goto :
    (s.goto client call).handedOut key = s.handedOut key := rfl

@[simp] theorem superseded_goto :
    (s.goto client call).superseded key = s.superseded key := rfl

@[simp] theorem handedOut_store (docid : Nat) :
    (s.store other docid).handedOut key = s.handedOut key := rfl

@[simp] theorem superseded_store (docid : Nat) :
    (s.store other docid).superseded key = s.superseded key := rfl

theorem handedOut_finish :
    (s.finish client other result).handedOut key =
      (if other = key then result.docid?.toList else []) ++
        s.handedOut key := by
  unfold DidDb.finish DidDb.handedOut
  by_cases same : other = key
  · cases found : result.docid? <;> simp [same, found]
  · simp [same]

theorem superseded_finish :
    (s.finish client other result).superseded key =
      (if other = key then result.olddocid?.toList else []) ++
        s.superseded key := by
  unfold DidDb.finish DidDb.superseded
  by_cases same : other = key
  · cases found : result.olddocid? <;> simp [same, found]
  · simp [same]

end Frame

theorem step_cases {event : Event} (stepped : s.step event = some next) :
    (∃ client key, event = .getNewDocId client key ∧ s.call client = .idle ∧
      (s.lastDid + 1) % 2 ^ 32 ≠ 0 ∧
      next = { s with lastDid := (s.lastDid + 1) % 2 ^ 32 }.goto client
        (.putNoOverwrite key ((s.lastDid + 1) % 2 ^ 32))) ∨
    (∃ client key, event = .getNewDocId client key ∧ s.call client = .idle ∧
      (s.lastDid + 1) % 2 ^ 32 = 0 ∧
      next = { s with lastDid := 0 }.goto client (.overflowed key)) ∨
    (∃ client key, event = .advance client ∧
      s.call client = .overflowed key ∧
      next = { s with
        lastDid := (s.lastDid + (2 ^ 32 - 1)) % 2 ^ 32 }.finish client key
          .overflow) ∨
    (∃ client key docid, event = .advance client ∧
      s.call client = .putNoOverwrite key docid ∧ s.db key = none ∧
      next = (s.store key docid).finish client key (.newRegistered docid)) ∨
    (∃ client key docid, event = .advance client ∧
      s.call client = .putNoOverwrite key docid ∧ (s.db key).isSome ∧
      next = s.goto client (.getOld key docid)) ∨
    (∃ client key docid, event = .advance client ∧
      s.call client = .getOld key docid ∧ s.db key = none ∧
      next = s.finish client key .fail) ∨
    (∃ client key docid olddocid, event = .advance client ∧
      s.call client = .getOld key docid ∧ s.db key = some olddocid ∧
      next = s.goto client (.overwrite key docid olddocid)) ∨
    (∃ client key docid olddocid, event = .advance client ∧
      s.call client = .overwrite key docid olddocid ∧
      next = (s.store key docid).finish client key
        (.oldRegistered docid olddocid)) := by
  cases event with
  | getNewDocId client key =>
    cases called : s.call client with
    | idle =>
      simp only [DidDb.step, called, Option.some.injEq] at stepped
      by_cases wraps : (s.lastDid + 1) % 2 ^ 32 = 0
      · refine .inr (.inl ⟨client, key, rfl, called, wraps, ?_⟩)
        rw [← stepped, if_pos wraps, wraps]
      · refine .inl ⟨client, key, rfl, called, wraps, ?_⟩
        rw [← stepped, if_neg wraps]
    | _ => simp [DidDb.step, called] at stepped
  | advance client =>
    cases called : s.call client with
    | idle => simp [DidDb.step, called] at stepped
    | overflowed key =>
      simp only [DidDb.step, called, Option.some.injEq] at stepped
      exact .inr (.inr (.inl ⟨client, key, rfl, called, stepped.symm⟩))
    | putNoOverwrite key docid =>
      simp only [DidDb.step, called] at stepped
      cases stored : s.db key with
      | none =>
        rw [stored] at stepped
        exact .inr (.inr (.inr (.inl ⟨client, key, docid, rfl, called,
          stored, (Option.some.inj stepped).symm⟩)))
      | some current =>
        rw [stored] at stepped
        exact .inr (.inr (.inr (.inr (.inl ⟨client, key, docid, rfl,
          called, by simp [stored],
          (Option.some.inj stepped).symm⟩))))
    | getOld key docid =>
      simp only [DidDb.step, called] at stepped
      cases stored : s.db key with
      | none =>
        rw [stored] at stepped
        exact .inr (.inr (.inr (.inr (.inr (.inl ⟨client, key, docid,
          rfl, called, stored, (Option.some.inj stepped).symm⟩)))))
      | some current =>
        rw [stored] at stepped
        exact .inr (.inr (.inr (.inr (.inr (.inr (.inl ⟨client, key,
          docid, current, rfl, called, stored,
          (Option.some.inj stepped).symm⟩))))))
    | overwrite key docid olddocid =>
      simp only [DidDb.step, called, Option.some.injEq] at stepped
      exact .inr (.inr (.inr (.inr (.inr (.inr (.inr ⟨client, key, docid,
        olddocid, rfl, called, stepped.symm⟩))))))

theorem DidDb.KeyInv.frame (inv : s.KeyInv key) (db_eq : next.db key = s.db key)
    (handed_eq : next.handedOut key = s.handedOut key)
    (superseded_eq : next.superseded key = s.superseded key)
    (calls : ∀ client, next.call client = s.call client ∨
      (next.call client).key? ≠ some key) :
    next.KeyInv key := by
  have unchanged : ∀ client, (next.call client).key? = some key →
      next.call client = s.call client := by
    intro client on
    rcases calls client with same | off
    · exact same
    · exact absurd on off
  refine ⟨⟨?_, ?_, ?_⟩, ?_, ?_, ?_, ?_⟩
  · rw [handed_eq, db_eq, superseded_eq]
    exact inv.accounted.perm
  · rw [handed_eq]
    exact inv.accounted.nodup
  · rw [handed_eq, db_eq]
    exact inv.accounted.largest
  · intro first second onFirst onSecond
    have firstEq := unchanged first onFirst
    have secondEq := unchanged second onSecond
    exact inv.exclusive first second (firstEq ▸ onFirst) (secondEq ▸ onSecond)
  · intro client docid on has
    have same := unchanged client on
    rw [handed_eq]
    exact inv.above client docid (same ▸ on) (same ▸ has)
  · intro client docid at_get
    have same := unchanged client (by simp [at_get, Call.key?])
    rw [db_eq]
    exact inv.held client docid (same ▸ at_get)
  · intro client docid olddocid at_put
    have same := unchanged client (by simp [at_put, Call.key?])
    rw [db_eq]
    exact inv.read client docid olddocid (same ▸ at_put)

theorem DidDb.KeyInv.of_quiet (accounted : s.Accounted key)
    (quiet : ∀ client, (s.call client).key? ≠ some key) : s.KeyInv key where
  accounted := accounted
  exclusive := fun first _ on _ => absurd on (quiet first)
  above := fun client _ on _ => absurd on (quiet client)
  held := fun client _ at_get =>
    absurd (by simp [at_get, Call.key?]) (quiet client)
  read := fun client _ _ at_put =>
    absurd (by simp [at_put, Call.key?]) (quiet client)

theorem quiet_of_finish (alone : ∀ other, (s.call other).key? = some key → other = client)
    (other : Nat) :
    ((s.finish client key result).call other).key? ≠ some key := by
  by_cases same : other = client
  · simp [DidDb.finish, DidDb.goto, same, Call.key?]
  · intro working
    simp only [DidDb.finish, DidDb.goto, Function.update_of_ne same] at working
    exact same (alone other working)

theorem DidDb.Accounted.register {docid : Nat} (accounted : s.Accounted key)
    (above : ∀ handed ∈ s.handedOut key, handed < docid) (returned : result.docid? = some docid)
    (reported : result.olddocid? = s.db key) :
    ((s.store key docid).finish client key result).Accounted key := by
  have handed : ((s.store key docid).finish client key result).handedOut key =
      docid :: s.handedOut key := by
    simp [handedOut_finish, returned]
  have stored : ((s.store key docid).finish client key result).db key =
      some docid := by
    simp [DidDb.finish, DidDb.goto, DidDb.store]
  refine ⟨?_, ?_, ?_⟩
  · rw [handed, stored, superseded_finish, if_pos rfl, reported,
      superseded_store]
    exact accounted.perm.cons docid
  · rw [handed, List.nodup_cons]
    refine ⟨fun member => ?_, accounted.nodup⟩
    exact Nat.lt_irrefl _ (above docid member)
  · intro id member
    refine ⟨docid, stored, ?_⟩
    rw [handed, List.mem_cons] at member
    rcases member with rfl | member
    · exact Nat.le_refl id
    · exact Nat.le_of_lt (above id member)

theorem DidDb.KeyInv.advance {call : Call} (inv : s.KeyInv key) (docid : Nat)
    (on : (s.call client).key? = some key) (has : (s.call client).docid? = some docid)
    (docid_eq : call.docid? = some docid) (held : (s.db key).isSome)
    (read : ∀ docid olddocid, call = .overwrite key docid olddocid →
      s.db key = some olddocid) :
    (s.goto client call).KeyInv key := by
  have alone : ∀ other, (s.call other).key? = some key → other = client :=
    fun other working => inv.exclusive other client working on
  have moved : ∀ other, ((s.goto client call).call other).key? = some key →
      other = client := by
    intro other working
    by_contra differs
    simp only [DidDb.goto, Function.update_of_ne differs] at working
    exact differs (alone other working)
  have now : (s.goto client call).call client = call := by
    simp [DidDb.goto]
  refine ⟨⟨?_, ?_, ?_⟩, ?_, ?_, ?_, ?_⟩
  · exact inv.accounted.perm
  · exact inv.accounted.nodup
  · exact inv.accounted.largest
  · intro first second onFirst onSecond
    rw [moved first onFirst, moved second onSecond]
  · intro other id onOther hasOther
    obtain rfl := moved other onOther
    rw [now, docid_eq] at hasOther
    obtain rfl := Option.some.inj hasOther
    exact inv.above other docid on has
  · intro other id atGet
    exact held
  · intro other id olddocid atPut
    obtain rfl := moved other (by simp [atPut, Call.key?])
    exact read id olddocid (now.symm.trans atPut)

theorem DidDb.KeyInv.begin {lastDid : Nat} {call : Call} (inv : s.KeyInv key)
    (quiet : ∀ other, (s.call other).key? ≠ some key) (fresh : ∀ docid, call.docid? = some docid →
      ∀ handed ∈ s.handedOut key, handed < docid) (notGet : ∀ docid, call ≠ .getOld key docid)
    (notPut : ∀ docid olddocid, call ≠ .overwrite key docid olddocid) :
    ({ s with lastDid := lastDid }.goto client call).KeyInv key := by
  have now : ({ s with lastDid := lastDid }.goto client call).call client =
      call := by
    simp [DidDb.goto]
  have only : ∀ other,
      (({ s with lastDid := lastDid }.goto client call).call other).key? =
        some key → other = client := by
    intro other on
    by_contra differs
    simp only [DidDb.goto, Function.update_of_ne differs] at on
    exact quiet other on
  refine ⟨⟨inv.accounted.perm, inv.accounted.nodup, inv.accounted.largest⟩,
    ?_, ?_, ?_, ?_⟩
  · intro first second onFirst onSecond
    rw [only first onFirst, only second onSecond]
  · intro other docid on has
    obtain rfl := only other on
    exact fresh docid (now ▸ has)
  · intro other docid atGet
    obtain rfl := only other (by simp [atGet, Call.key?])
    exact absurd (now.symm.trans atGet) (notGet docid)
  · intro other docid olddocid atPut
    obtain rfl := only other (by simp [atPut, Call.key?])
    exact absurd (now.symm.trans atPut) (notPut docid olddocid)

theorem call_finish_frame {finished : Key} (other : Nat) :
    (s.finish client finished result).call other = s.call other ∨
      ((s.finish client finished result).call other).key? ≠ some key := by
  by_cases same : other = client
  · right
    simp [DidDb.finish, DidDb.goto, same, Call.key?]
  · left
    simp [DidDb.finish, DidDb.goto, Function.update_of_ne same]

theorem call_goto_frame {call : Call} (off : call.key? ≠ some key) (other : Nat) :
    (s.goto client call).call other = s.call other ∨
      ((s.goto client call).call other).key? ≠ some key := by
  by_cases same : other = client
  · right
    simpa [DidDb.goto, same] using off
  · left
    simp [DidDb.goto, Function.update_of_ne same]

theorem DidDb.KeyInv.frame_register {docid : Nat} {registered : Key} (inv : s.KeyInv key)
    (differs : registered ≠ key) :
    ((s.store registered docid).finish client registered result).KeyInv
      key := by
  refine inv.frame ?_ ?_ ?_ ?_
  · simp [DidDb.finish, DidDb.goto, DidDb.store,
      Function.update_of_ne (Ne.symm differs)]
  · simp [handedOut_finish, differs]
  · simp [superseded_finish, differs]
  · exact fun other => call_finish_frame other

theorem step_keyInv {event : Event} (inv : s.Inv) (exclusive : s.Exclusive event)
    (stepped : s.step event = some next) (key : Key) : next.KeyInv key := by
  obtain ⟨top, counter⟩ := inv.counter
  have keyInv := inv.keys key
  rcases step_cases stepped with
    ⟨client, begun, rfl, idle, nonzero, rfl⟩ |
    ⟨client, begun, rfl, idle, zero, rfl⟩ |
    ⟨client, wrapped, rfl, called, rfl⟩ |
    ⟨client, put, docid, rfl, called, absent, rfl⟩ |
    ⟨client, put, docid, rfl, called, present, rfl⟩ |
    ⟨client, got, docid, rfl, called, absent, rfl⟩ |
    ⟨client, got, docid, olddocid, rfl, called, present, rfl⟩ |
    ⟨client, put, docid, olddocid, rfl, called, rfl⟩
  · by_cases same : begun = key
    · subst begun
      have settled := counter.settled fun other => (exclusive other).2
      refine keyInv.begin (fun other => (exclusive other).1) ?_
        (by simp) (by simp)
      intro docid has handed member
      have below := counter.handed_le key handed member
      have topBound := counter.top_lt
      simp only [Call.docid?, Option.some.injEq] at has
      omega
    · exact keyInv.frame rfl rfl rfl
        (call_goto_frame (by simpa [Call.key?] using same))
  · by_cases same : begun = key
    · subst begun
      exact keyInv.begin (fun other => (exclusive other).1)
        (by simp [Call.docid?]) (by simp) (by simp)
    · exact keyInv.frame rfl rfl rfl
        (call_goto_frame (by simpa [Call.key?] using same))
  · refine keyInv.frame rfl ?_ ?_ (fun other => call_finish_frame other)
    · rw [handedOut_finish]
      split <;> rfl
    · rw [superseded_finish]
      split <;> rfl
  · by_cases same : put = key
    · subst put
      have on : (s.call client).key? = some key := by simp [called, Call.key?]
      refine .of_quiet ?_ (quiet_of_finish fun other working =>
        keyInv.exclusive other client working on)
      exact keyInv.accounted.register
        (keyInv.above client docid on (by simp [called, Call.docid?]))
        rfl (by simp [Result.olddocid?, absent])
    · exact keyInv.frame_register same
  · by_cases same : put = key
    · subst put
      exact keyInv.advance docid (by simp [called, Call.key?])
        (by simp [called, Call.docid?]) rfl present (by simp)
    · exact keyInv.frame rfl rfl rfl
        (call_goto_frame (by simpa [Call.key?] using same))
  · have held := (inv.keys got).held client docid called
    simp [absent] at held
  · by_cases same : got = key
    · subst got
      refine keyInv.advance docid (by simp [called, Call.key?])
        (by simp [called, Call.docid?]) rfl (by simp [present]) ?_
      intro _ old equal
      cases equal
      exact present
    · exact keyInv.frame rfl rfl rfl
        (call_goto_frame (by simpa [Call.key?] using same))
  · by_cases same : put = key
    · subst put
      have on : (s.call client).key? = some key := by simp [called, Call.key?]
      refine .of_quiet ?_ (quiet_of_finish fun other working =>
        keyInv.exclusive other client working on)
      exact keyInv.accounted.register
        (keyInv.above client docid on (by simp [called, Call.docid?]))
        rfl (keyInv.read client docid olddocid called).symm
    · exact keyInv.frame_register same

theorem DidDb.CounterInv.frame {top : Nat} (inv : s.CounterInv top)
    (last_eq : next.lastDid = s.lastDid) (wrapped_iff : ∀ client,
      (next.call client).Wrapped ↔ (s.call client).Wrapped)
    (handed_le : ∀ key, ∀ docid ∈ next.handedOut key, docid ≤ top)
    (pending_le : ∀ client docid, (next.call client).docid? = some docid →
      docid ≤ top) :
    next.CounterInv top where
  top_lt := inv.top_lt
  settled := fun settled => by
    rw [last_eq]
    exact inv.settled fun client wrapped =>
      settled client ((wrapped_iff client).mpr wrapped)
  wrapped := fun client wrapped => by
    obtain ⟨zero, last, only⟩ :=
      inv.wrapped client ((wrapped_iff client).mp wrapped)
    exact ⟨last_eq.trans zero, last,
      fun other others => only other ((wrapped_iff other).mp others)⟩
  handed_le := handed_le
  pending_le := pending_le

theorem DidDb.CounterInv.goto {top : Nat} {call : Call} (inv : s.CounterInv top) (docid : Nat)
    (has : (s.call client).docid? = some docid)
    (next_has : ∀ id, call.docid? = some id → id = docid) (settled : ¬ call.Wrapped) :
    (s.goto client call).CounterInv top := by
  have before : ¬ (s.call client).Wrapped := by
    cases called : s.call client <;> simp_all [Call.Wrapped, Call.docid?]
  refine inv.frame rfl ?_ inv.handed_le ?_
  · intro other
    by_cases same : other = client
    · subst other
      simp [DidDb.goto, settled, before]
    · simp [DidDb.goto, Function.update_of_ne same]
  · intro other id hasOther
    by_cases same : other = client
    · subst other
      simp only [DidDb.goto, Function.update_self] at hasOther
      rw [next_has id hasOther]
      exact inv.pending_le client docid has
    · simp only [DidDb.goto, Function.update_of_ne same] at hasOther
      exact inv.pending_le other id hasOther

theorem DidDb.CounterInv.register {top docid : Nat} (inv : s.CounterInv top)
    (has : (s.call client).docid? = some docid) (returned : result.docid? = some docid) :
    ((s.store key docid).finish client key result).CounterInv top := by
  have moved : (s.goto client .idle).CounterInv top :=
    inv.goto docid has (by simp [Call.docid?]) (by simp [Call.Wrapped])
  refine moved.frame rfl (fun _ => Iff.rfl) ?_ moved.pending_le
  intro other id member
  rw [handedOut_finish, returned] at member
  by_cases same : key = other
  · simp only [same, if_true, Option.toList_some, List.singleton_append,
      List.mem_cons] at member
    rcases member with rfl | member
    · exact inv.pending_le client id has
    · exact inv.handed_le other id member
  · simp only [same, if_false, List.nil_append] at member
    exact inv.handed_le other id member

theorem step_counterInv {event : Event} (inv : s.Inv) (exclusive : s.Exclusive event)
    (stepped : s.step event = some next) :
    ∃ top, next.CounterInv top := by
  obtain ⟨top, counter⟩ := inv.counter
  have topBound := counter.top_lt
  rcases step_cases stepped with
    ⟨client, begun, rfl, idle, nonzero, rfl⟩ |
    ⟨client, begun, rfl, idle, zero, rfl⟩ |
    ⟨client, wrapped, rfl, called, rfl⟩ |
    ⟨client, put, docid, rfl, called, absent, rfl⟩ |
    ⟨client, put, docid, rfl, called, present, rfl⟩ |
    ⟨client, got, docid, rfl, called, absent, rfl⟩ |
    ⟨client, got, docid, olddocid, rfl, called, present, rfl⟩ |
    ⟨client, put, docid, olddocid, rfl, called, rfl⟩
  · have settled := counter.settled fun other => (exclusive other).2
    have still : ∀ other, ¬ (Function.update s.call client
        (.putNoOverwrite begun ((s.lastDid + 1) % 2 ^ 32)) other).Wrapped := by
      intro other
      by_cases same : other = client
      · simp [same, Call.Wrapped]
      · rw [Function.update_of_ne same]
        exact (exclusive other).2
    refine ⟨top + 1, by omega, fun _ => ?_,
      fun other wraps => absurd wraps (still other), ?_, ?_⟩
    · simp only [DidDb.goto]
      omega
    · intro key id member
      have := counter.handed_le key id member
      omega
    · intro other id has
      by_cases same : other = client
      · subst other
        simp only [DidDb.goto, Function.update_self, Call.docid?,
          Option.some.injEq] at has
        omega
      · simp only [DidDb.goto, Function.update_of_ne same] at has
        have := counter.pending_le other id has
        omega
  · have settled := counter.settled fun other => (exclusive other).2
    refine ⟨top, topBound, fun none => ?_, fun other wraps => ⟨rfl, by omega, ?_⟩,
      counter.handed_le, ?_⟩
    · exact absurd (by simp [DidDb.goto, Call.Wrapped]) (none client)
    · have only : ∀ someone, (Function.update s.call client
          (.overflowed begun) someone).Wrapped → someone = client := by
        intro someone wraps
        by_contra differs
        rw [Function.update_of_ne differs] at wraps
        exact (exclusive someone).2 wraps
      intro someone others
      exact (only someone others).trans (only other wraps).symm
    · intro other id has
      by_cases same : other = client
      · subst other
        simp [DidDb.goto, Call.docid?] at has
      · simp only [DidDb.goto, Function.update_of_ne same] at has
        exact counter.pending_le other id has
  · obtain ⟨zero, last, only⟩ :=
      counter.wrapped client (by simp [called, Call.Wrapped])
    have still : ∀ other,
        ¬ (Function.update s.call client .idle other).Wrapped := by
      intro other wraps
      by_cases same : other = client
      · simp [same, Call.Wrapped] at wraps
      · rw [Function.update_of_ne same] at wraps
        exact same (only other wraps)
    refine ⟨top, topBound, fun _ => ?_,
      fun other wraps => absurd wraps (still other), ?_, ?_⟩
    · simp only [DidDb.finish, DidDb.goto]
      omega
    · intro key id member
      rw [handedOut_finish] at member
      have nothing : (if wrapped = key then Result.overflow.docid?.toList
          else []) = [] := by
        split <;> rfl
      rw [nothing] at member
      exact counter.handed_le key id member
    · intro other id has
      by_cases same : other = client
      · subst other
        simp [DidDb.finish, DidDb.goto, Call.docid?] at has
      · simp only [DidDb.finish, DidDb.goto, Function.update_of_ne same] at has
        exact counter.pending_le other id has
  · exact ⟨top, counter.register (by simp [called, Call.docid?]) rfl⟩
  · exact ⟨top, counter.goto docid (by simp [called, Call.docid?])
      (by simp [Call.docid?]) (by simp [Call.Wrapped])⟩
  · have held := (inv.keys got).held client docid called
    simp [absent] at held
  · exact ⟨top, counter.goto docid (by simp [called, Call.docid?])
      (by simp [Call.docid?]) (by simp [Call.Wrapped])⟩
  · exact ⟨top, counter.register (by simp [called, Call.docid?]) rfl⟩

theorem created_inv : DidDb.created.Inv where
  counter := ⟨0, by decide, fun _ => rfl,
    fun _ wraps => by simp [DidDb.created, Call.Wrapped] at wraps,
    fun _ _ member => by
      simp [DidDb.created, DidDb.handedOut] at member,
    fun _ _ has => by simp [DidDb.created, Call.docid?] at has⟩
  keys := fun key => .of_quiet
    ⟨by simp [DidDb.created, DidDb.handedOut, DidDb.superseded],
      by simp [DidDb.created, DidDb.handedOut],
      by simp [DidDb.created, DidDb.handedOut]⟩
    (by simp [DidDb.created, Call.key?])

/-- In every run that begins no call for a key still being registered, nor
behind a wrapped counter, every key is accounted for. -/
theorem exclusive_run_accounted {s : DidDb}
    (reached : Reach DidDb.step DidDb.Exclusive DidDb.created s) (key : Key) :
    s.Accounted key := by
  have inv : s.Inv := reached.invariant DidDb.Inv created_inv
    fun _ _ _ inv exclusive stepped =>
      ⟨step_counterInv inv exclusive stepped,
        step_keyInv inv exclusive stepped⟩
  exact (inv.keys key).accounted

theorem exclusive_advance (s : DidDb) (client : Nat) :
    s.Exclusive (.advance client) := trivial

/-- Two registrations of one key after each other, and their accounting. -/
theorem exclusive_run_accounted_twice :
    ∃ s, Reach DidDb.step DidDb.Exclusive DidDb.created s ∧
      (∀ client, s.call client = .idle) ∧
      s.handedOut [97] = [2, 1] ∧ s.Accounted [97] := by
  have quiet : ∀ s : DidDb, (∀ client, s.call client = .idle) →
      ∀ client, s.Exclusive (.getNewDocId client [97]) := by
    intro s idle client other
    simp [idle other, Call.key?, Call.Wrapped]
  have ended : ∀ other : Nat, Function.update
      (Function.update (fun _ => Call.idle) 0 (.putNoOverwrite [97] 1)) 0
        .idle other = .idle := by
    intro other
    by_cases same : other = 0
    · simp [same]
    · simp [Function.update_of_ne same]
  have opened : Reach DidDb.step DidDb.Exclusive DidDb.created DidDb.created :=
    .start
  have first := opened
    |>.step (.getNewDocId 0 [97]) (quiet _ (fun _ => rfl) 0) rfl
    |>.step (.advance 0) (exclusive_advance _ 0) rfl
  have second := first
    |>.step (.getNewDocId 1 [97]) (quiet _ ended 1) rfl
    |>.step (.advance 1) (exclusive_advance _ 1) rfl
    |>.step (.advance 1) (exclusive_advance _ 1) rfl
    |>.step (.advance 1) (exclusive_advance _ 1) rfl
  refine ⟨_, second, ?_, by decide, exclusive_run_accounted second [97]⟩
  intro client
  match client with
  | 0 => rfl
  | 1 => rfl
  | n + 2 => simp [DidDb.finish, DidDb.goto, DidDb.store, DidDb.created]

/-- Three registrations of one key: the second and the third both read the
first id as the old one, and the second id is never reported. -/
theorem overlapping_run_loses_docid :
    ¬ ∀ s, Reach DidDb.step (fun _ _ => True) DidDb.created s →
      (∀ client, s.call client = .idle) → ∀ key, s.Accounted key := by
  intro claim
  have opened : Reach DidDb.step (fun _ _ => True) DidDb.created
      DidDb.created := .start
  have reached := Reach.of_runSchedule
    [.getNewDocId 0 [97], .advance 0,
      .getNewDocId 1 [97], .getNewDocId 2 [97], .advance 1, .advance 2,
      .advance 1, .advance 2, .advance 1, .advance 2] opened rfl
  have accounted := claim _ reached (fun client => by
    match client with
    | 0 => rfl
    | 1 => rfl
    | 2 => rfl
    | n + 3 => simp [DidDb.finish, DidDb.goto, DidDb.store, DidDb.created])
    [97]
  exact absurd accounted.perm (by decide)

end Wisebot.Did
