import Wisebot.Hash.Crowding

namespace Wisebot.Hash

/-! Runs of adds, updates and deletes against the keys that stand after them: a delete only
flags the slot, and `hash_search` finds flagged slots too. -/

variable {Key Data : Type}

/-- What a call leaves of `key`: `none` while it was never added, `some none` once it is
deleted. -/
def Call.mark (keyEq : Key → Key → Bool) (key : Key) (current : Option (Option Data)) :
    Call Key Data → Answer Data → Option (Option Data)
  | .write (.add added data), .written (.added .success) =>
    if keyEq added key then some (some data) else current
  | .write (.update updated data), .written (.updated true) =>
    if keyEq updated key then current.map (Option.map fun _ => data) else current
  | .delete deleted, .deleted true => if keyEq deleted key then some none else current
  | _, _ => current

def standing (keyEq : Key → Key → Bool) (history : List (Call Key Data × Answer Data))
    (key : Key) : Option (Option Data) :=
  history.foldl (fun current step => step.1.mark keyEq key current step.2) none

def hashCalls [DecidableEq Data] (callbacks : Callbacks Key) :
    Shared Key Data → List (Call Key Data) →
      Option (Shared Key Data × List (Call Key Data × Answer Data))
  | shared, [] => some (shared, [])
  | shared, call :: rest => do
      let (next, answer) ← hashCall callbacks shared call
      let (final, history) ← hashCalls callbacks next rest
      some (final, (call, answer) :: history)

/-- `hash_search` returns the data of the keys that stand, and fails for deleted keys. -/
def Exact (callbacks : Callbacks Key) (shared : Shared Key Data)
    (history : List (Call Key Data × Answer Data)) : Prop :=
  ∀ key stored, standing callbacks.keyEq history key = some stored →
    hashSearch callbacks shared.table key = some stored

/-- No add is refused by a directory of the largest size, and no delete finds its key. -/
def Careful (callbacks : Callbacks Key) (shared : Shared Key Data) : Call Key Data → Prop
  | .write (.add key _) => ¬ RunsOut callbacks key shared.table
  | .write (.update _ _) => True
  | .delete key => Absent callbacks shared.table key

/-- Something holds of every call of a run and the state it is made in. -/
def EachCall [DecidableEq Data] (callbacks : Callbacks Key) (start : Shared Key Data)
    (calls : List (Call Key Data))
    (holds : Shared Key Data → Call Key Data → Prop) : Prop :=
  ∀ done call rest, calls = done ++ call :: rest → ∀ shared history,
    hashCalls callbacks start done = some (shared, history) → holds shared call

/-- Something holds of every state of a run and the calls made up to it. -/
def EachState [DecidableEq Data] (callbacks : Callbacks Key) (start : Shared Key Data)
    (calls : List (Call Key Data))
    (holds : Shared Key Data → List (Call Key Data × Answer Data) → Prop) : Prop :=
  ∀ done rest, calls = done ++ rest → ∀ shared history,
    hashCalls callbacks start done = some (shared, history) → holds shared history

variable {callbacks : Callbacks Key}

section Parts

variable [DecidableEq Data] {start next : Shared Key Data} {call : Call Key Data}
  {answer : Answer Data} {calls : List (Call Key Data)}
  {holds : Shared Key Data → Call Key Data → Prop}

theorem hashCalls_append (done rest : List (Call Key Data)) :
    hashCalls callbacks start (done ++ rest) =
      (hashCalls callbacks start done).bind fun first =>
        (hashCalls callbacks first.1 rest).map fun second =>
          (second.1, first.2 ++ second.2) := by
  induction done generalizing start with
  | nil =>
    simp only [List.nil_append, hashCalls, Option.bind_some]
    cases hashCalls callbacks start rest <;> rfl
  | cons call others induction =>
    simp only [List.cons_append, hashCalls, Option.bind_eq_bind]
    cases hashCall callbacks start call with
    | none => rfl
    | some called =>
      simp only [Option.bind_some, induction]
      cases hashCalls callbacks called.1 others with
      | none => rfl
      | some first =>
        simp only [Option.bind_some]
        cases hashCalls callbacks first.1 rest <;> rfl

theorem EachCall.head {rest : List (Call Key Data)}
    (each : EachCall callbacks start (call :: rest) holds) : holds start call :=
  each [] call rest rfl start [] rfl

theorem EachCall.tail {rest : List (Call Key Data)}
    (each : EachCall callbacks start (call :: rest) holds)
    (called : hashCall callbacks start call = some (next, answer)) :
    EachCall callbacks next rest holds := by
  rintro done other others rfl shared history ran
  refine each (call :: done) other others rfl shared ((call, answer) :: history) ?_
  simp only [hashCalls, called, ran, Option.bind_eq_bind, Option.bind_some]

theorem EachCall.concat (each : EachCall callbacks start calls holds)
    (last : ∀ shared history, hashCalls callbacks start calls = some (shared, history) →
      holds shared call) : EachCall callbacks start (calls ++ [call]) holds := by
  intro done other rest same shared history ran
  rcases List.eq_nil_or_concat rest with rfl | ⟨others, final, rfl⟩
  · obtain ⟨rfl, equal⟩ := List.append_inj' same rfl
    cases equal
    exact last shared history ran
  · rw [List.concat_eq_append, ← List.cons_append, ← List.append_assoc] at same
    obtain ⟨rfl, -⟩ := List.append_inj' same rfl
    exact each done other others rfl shared history ran

omit [DecidableEq Data] in
theorem standing_concat (keyEq : Key → Key → Bool)
    (history : List (Call Key Data × Answer Data)) (key : Key) :
    standing keyEq (history ++ [(call, answer)]) key =
      call.mark keyEq key (standing keyEq history key) answer := by
  rw [standing, List.foldl_append]
  rfl

end Parts

structure Flagless (callbacks : Callbacks Key) (shared : Shared Key Data)
    (history : List (Call Key Data × Answer Data)) (current : Key → Option Data)
    (keys : List Key) : Prop where
  represents : Represents callbacks shared.table current keys
  standing_eq : ∀ key, standing callbacks.keyEq history key = (current key).map some
  list_eq : shared.deletelist = []

theorem Represents.refused {table after : Table Key Data} {current : Key → Option Data}
    {keys : List Key} (laws : KeyLaws callbacks)
    (represents : Represents callbacks table current keys) (formed : WellFormed after)
    (perm : (allSlots after).Perm (allSlots table)) (count : after.nSlot = table.nSlot) :
    Represents callbacks after current keys where
  formed := formed
  keyed := represents.keyed.perm laws perm
  keys_perm := (perm.map Slot.key).trans represents.keys_perm
  nSlot_eq := by rw [count, perm.length_eq, represents.nSlot_eq]
  agrees := fun key => (represents.agrees key).perm perm

section Steps

variable {shared next : Shared Key Data}
  {history : List (Call Key Data × Answer Data)} {current : Key → Option Data}
  {keys : List Key} {key : Key} {data : Data}

theorem Flagless.add [DecidableEq Data] {result : AddResult Data} (laws : KeyLaws callbacks)
    {after : Table Key Data}
    (flagless : Flagless callbacks shared history current keys)
    (within : ¬ RunsOut callbacks key shared.table)
    (added : hashAdd callbacks shared.table key data = some (after, result)) :
    ∃ current keys, Flagless callbacks { shared with table := after }
      (history ++ [(.write (.add key data), .written (.added result))]) current keys := by
  have represents := flagless.represents
  rcases hashAddFuel_spec laws represents.formed represents.keyed added with
    ⟨slot, member, equal, rfl, rfl⟩ | ⟨absent, rfl | ⟨rfl, inserted⟩⟩
  · refine ⟨current, keys, represents, fun other => ?_, flagless.list_eq⟩
    rw [standing_concat, flagless.standing_eq other]
    by_cases same : slot.data = data
    · rw [if_pos same]
      simp only [Call.mark]
      split
      case isTrue hit =>
        rw [represents.current_of_mem laws member (laws.trans equal hit), ← same]
        rfl
      case isFalse => rfl
    · rw [if_neg same]
      rfl
  · rcases hashAddFuel_overflow laws represents.formed represents.keyed added with
      ⟨_, formed, perm, count⟩ | ⟨out, _⟩
    · refine ⟨current, keys, represents.refused laws formed perm count, fun other => ?_,
        flagless.list_eq⟩
      rw [standing_concat, flagless.standing_eq other]
      rfl
    · exact absurd out within
  · have grown := represents.add_absent laws absent inserted
    refine ⟨_, _, grown, fun other => ?_, flagless.list_eq⟩
    rw [standing_concat, flagless.standing_eq other]
    simp only [Call.mark, Op.write]
    split
    case isTrue hit =>
      rw [represents.current_of_absent laws absent hit]
      rfl
    case isFalse => rfl

theorem Flagless.update {success : Bool} (laws : KeyLaws callbacks) {after : Table Key Data}
    (flagless : Flagless callbacks shared history current keys)
    (updated : hashUpdate callbacks shared.table key data = some (after, success)) :
    ∃ current keys, Flagless callbacks { shared with table := after }
      (history ++ [(.write (.update key data), .written (.updated success))]) current keys := by
  have represents := flagless.represents
  rcases absent_or_stored callbacks shared.table key with absent | ⟨slot, member, equal⟩
  · have same := (hashUpdate_absent data represents.formed absent).symm.trans updated
    obtain ⟨rfl, rfl⟩ := Prod.mk.inj (Option.some.inj same)
    refine ⟨current, keys, represents, fun other => ?_, flagless.list_eq⟩
    rw [standing_concat, flagless.standing_eq other]
    rfl
  · obtain ⟨changed, rest, computed, formed, before, replaced, count⟩ :=
      hashUpdate_present laws data represents.formed represents.keyed member equal
    obtain ⟨rfl, rfl⟩ := Prod.mk.inj (Option.some.inj (computed.symm.trans updated))
    refine ⟨_, _, represents.update_present laws equal formed before replaced count,
      fun other => ?_, flagless.list_eq⟩
    rw [standing_concat, flagless.standing_eq other]
    simp only [Call.mark, Op.write]
    split
    case isTrue => cases current other <;> rfl
    case isFalse => rfl

theorem Flagless.delete_absent {success : Bool}
    (flagless : Flagless callbacks shared history current keys)
    (absent : Absent callbacks shared.table key)
    (deleted : hashDelete callbacks shared key = some (next, success)) :
    Flagless callbacks next (history ++ [(.delete key, .deleted success)]) current keys := by
  obtain ⟨home, layout⟩ := flagless.represents.formed
  obtain ⟨blockIdx, bound, probe⟩ := layout.probe_absent absent
  obtain ⟨other, found, hit, ⟨_, rfl, rfl⟩ | ⟨slotnum, slot, rfl, _⟩⟩ :=
    hashDelete_cases deleted
  · refine { flagless with standing_eq := fun other => ?_ }
    rw [standing_concat, flagless.standing_eq other]
    rfl
  · obtain rfl := probe.unique hit
    cases probe.findSlot_eq.symm.trans hit.findSlot_eq

theorem Flagless.delete_stored {slot : Slot Key Data} (laws : KeyLaws callbacks)
    (flagless : Flagless callbacks shared history current keys)
    (member : slot ∈ allSlots shared.table) (equal : callbacks.keyEq slot.key key = true) :
    ∃ next, hashDelete callbacks shared key = some (next, true) ∧
      next.table.unflagged = shared.table.unflagged := by
  obtain ⟨home, layout⟩ := flagless.represents.formed
  obtain ⟨blockIdx, found, _, probe, stored, _⟩ :=
    layout.probe_present laws flagless.represents.keyed member equal
  have pending : ¬ hashDeletelistSize ≤ shared.deletelist.length := by
    rw [flagless.list_eq]
    decide
  refine ⟨⟨shared.table.setBucket blockIdx { shared.table.bucket blockIdx with
      slots := (shared.table.bucket blockIdx).slots.set found { slot with deleted := true } },
    shared.deletelist ++ [(getPrefix (callbacks.hashFunc key) shared.table.depth, found)]⟩, ?_,
    flagged_unflagged stored⟩
  simp only [hashDelete, probe.directoryAt_eq, probe.getBucket_eq, probe.findSlot_eq, stored,
    if_neg pending]

theorem Flagless.call [DecidableEq Data] {answer : Answer Data} {call : Call Key Data}
    (laws : KeyLaws callbacks)
    (flagless : Flagless callbacks shared history current keys)
    (careful : Careful callbacks shared call)
    (called : hashCall callbacks shared call = some (next, answer)) :
    ∃ current keys, Flagless callbacks next (history ++ [(call, answer)]) current keys := by
  cases call with
  | write op =>
    obtain ⟨⟨after, reply⟩, wrote, same⟩ := Option.bind_eq_some_iff.mp called
    cases same
    cases op with
    | add key data =>
      obtain ⟨⟨_, result⟩, added, same⟩ := Option.bind_eq_some_iff.mp wrote
      cases same
      exact flagless.add laws careful added
    | update key data =>
      obtain ⟨⟨_, result⟩, updated, same⟩ := Option.bind_eq_some_iff.mp wrote
      cases same
      exact flagless.update laws updated
  | delete key =>
    obtain ⟨⟨_, success⟩, deleted, same⟩ := Option.bind_eq_some_iff.mp called
    cases same
    exact ⟨current, keys, flagless.delete_absent careful deleted⟩

theorem Flagless.run [DecidableEq Data] {calls : List (Call Key Data)}
    (laws : KeyLaws callbacks)
    {more : List (Call Key Data × Answer Data)}
    (flagless : Flagless callbacks shared history current keys)
    (careful : EachCall callbacks shared calls (Careful callbacks))
    (ran : hashCalls callbacks shared calls = some (next, more)) :
    ∃ current keys, Flagless callbacks next (history ++ more) current keys := by
  induction calls generalizing shared history current keys more with
  | nil =>
    cases ran
    exact ⟨current, keys, by rwa [List.append_nil]⟩
  | cons call rest induction =>
    simp only [hashCalls, Option.bind_eq_bind, Option.bind_eq_some_iff] at ran
    obtain ⟨⟨middle, answer⟩, called, ⟨final, others⟩, ranRest, same⟩ := ran
    cases same
    obtain ⟨currentNext, keysNext, flaglessNext⟩ := flagless.call laws careful.head called
    obtain ⟨currentEnd, keysEnd, flaglessEnd⟩ :=
      induction flaglessNext (careful.tail called) ranRest
    rw [List.append_assoc] at flaglessEnd
    exact ⟨currentEnd, keysEnd, flaglessEnd⟩

theorem Flagless.exact (laws : KeyLaws callbacks)
    (flagless : Flagless callbacks shared history current keys) :
    Exact callbacks shared history := by
  intro key stored stands
  rw [flagless.standing_eq key] at stands
  obtain ⟨data, value, rfl⟩ := Option.map_eq_some_iff.mp stands
  rw [flagless.represents.search laws key, value]

end Steps

theorem hashOpen_flagless {initDepth : Nat} {start : Table Key Data}
    (opened : hashOpen callbacks initDepth .sorted = some start) :
    Flagless callbacks ⟨start, []⟩ [] (fun _ => none) [] :=
  ⟨hashOpen_represents opened, fun _ => rfl, rfl⟩

theorem EachCall.take [DecidableEq Data] {start : Shared Key Data} {done : List (Call Key Data)}
    {holds : Shared Key Data → Call Key Data → Prop} (rest : List (Call Key Data))
    (each : EachCall callbacks start (done ++ rest) holds) :
    EachCall callbacks start done holds := by
  rintro first call others rfl shared history ran
  exact each first call (others ++ rest) (by simp) shared history ran

theorem Flagless.absent_of_exact [DecidableEq Data] {shared : Shared Key Data} {key : Key}
    {history : List (Call Key Data × Answer Data)} {current : Key → Option Data}
    {keys : List Key} (laws : KeyLaws callbacks)
    (flagless : Flagless callbacks shared history current keys)
    (exact_next : ∀ next answer, hashCall callbacks shared (.delete key) = some (next, answer) →
      Exact callbacks next (history ++ [(.delete key, answer)])) :
    Absent callbacks shared.table key := by
  rcases absent_or_stored callbacks shared.table key with absent | ⟨slot, member, equal⟩
  · exact absent
  · obtain ⟨next, deleted, unflagged⟩ := flagless.delete_stored laws member equal
    have called : hashCall callbacks shared (.delete key) = some (next, .deleted true) := by
      simp only [hashCall, deleted, Option.bind_eq_bind, Option.bind_some]
    have stands : standing callbacks.keyEq (history ++ [(.delete key, .deleted true)]) key =
        some none := by
      rw [standing_concat]
      exact if_pos (laws.refl key)
    have gone := exact_next next _ called key none stands
    rw [← hashSearch_unflagged, unflagged, hashSearch_unflagged,
      hashSearch_present laws flagless.represents.formed flagless.represents.keyed member
        equal] at gone
    cases gone

/-- In a run whose adds are not refused by a directory of the largest size, every state
answers for the keys that stand if and only if no delete ever finds its key. -/
theorem hashDelete_exact_iff [DecidableEq Data] (laws : KeyLaws callbacks) {initDepth : Nat}
    {start : Table Key Data} (opened : hashOpen callbacks initDepth .sorted = some start)
    {calls : List (Call Key Data)}
    (within : EachCall callbacks ⟨start, []⟩ calls (Within callbacks)) :
    EachState callbacks ⟨start, []⟩ calls (Exact callbacks) ↔
      EachCall callbacks ⟨start, []⟩ calls (Careful callbacks) := by
  constructor
  · intro exact_states
    suffices careful : ∀ done rest, calls = done ++ rest →
        EachCall callbacks ⟨start, []⟩ done (Careful callbacks) from
      careful calls [] (by simp)
    intro done
    induction done using List.reverseRecOn with
    | nil =>
      intro _ _ first call others same
      cases first <;> cases same
    | append_singleton done call induction =>
      intro rest same
      rw [List.append_assoc] at same
      have before := induction _ same
      refine before.concat fun shared history ran => ?_
      obtain ⟨current, keys, flagless⟩ := (hashOpen_flagless opened).run laws before ran
      rw [List.nil_append] at flagless
      cases call with
      | write op =>
        cases op with
        | add key data => exact within done _ rest same shared history ran
        | update => trivial
      | delete key =>
        refine flagless.absent_of_exact laws fun next answer called => ?_
        refine exact_states (done ++ [.delete key]) rest (by rw [same, List.append_assoc])
          next _ ?_
        rw [hashCalls_append, ran]
        simp only [Option.bind_some, hashCalls, called, Option.bind_eq_bind, Option.map_some]
  · rintro careful done rest rfl shared history ran
    obtain ⟨_, _, flagless⟩ := (hashOpen_flagless opened).run laws (careful.take rest) ran
    exact flagless.exact laws

theorem hashDelete_exact_iff_two_calls :
    ∃ start : Table Nat Nat, hashOpen byteCallbacks 0 .sorted = some start ∧
      (EachState byteCallbacks ⟨start, []⟩ [.write (.add 5 10), .delete 5]
          (Exact byteCallbacks) ↔
        EachCall byteCallbacks ⟨start, []⟩ [.write (.add 5 10), .delete 5]
          (Careful byteCallbacks)) := by
  obtain ⟨start, opened⟩ : ∃ start : Table Nat Nat,
      hashOpen byteCallbacks 0 .sorted = some start := ⟨_, rfl⟩
  obtain ⟨formed, empty, _⟩ := hashOpen_formed opened
  have first : ¬ RunsOut byteCallbacks 5 start :=
    not_runsOut_of_few formed (by rw [empty]; decide)
  have within : EachCall byteCallbacks ⟨start, []⟩ [.write (.add 5 10), .delete 5]
      (Within byteCallbacks) := by
    have none_made : EachCall byteCallbacks ⟨start, []⟩ [] (Within byteCallbacks) := by
      intro done call rest same
      cases done <;> cases same
    have one : EachCall byteCallbacks ⟨start, []⟩ [.write (.add 5 10)] (Within byteCallbacks) :=
      none_made.concat fun shared history ran => by
        cases ran
        exact first
    exact one.concat fun shared history ran => trivial
  exact ⟨start, opened, hashDelete_exact_iff byteCallbacks_laws opened within⟩

/-- The key is found after its delete succeeded. -/
theorem hashDelete_still_found :
    ((hashOpen byteCallbacks 0 .sorted).bind fun start : Table Nat Nat =>
      (hashCalls byteCallbacks ⟨start, []⟩ [.write (.add 5 10), .delete 5]).map fun result =>
        (result.2.map Prod.snd, standing byteCallbacks.keyEq result.2 5,
          hashSearch byteCallbacks result.1.table 5)) =
      some ([.written (.added .success), .deleted true], some none, some (some 10)) := by
  decide +kernel

end Wisebot.Hash
