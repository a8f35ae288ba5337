import Wisebot.Hash.Map

namespace Wisebot.Hash

/-! Runs of `hash_add` and `hash_update` against the map in which the first
write of a key wins. -/

variable {Key Data : Type} {callbacks : Callbacks Key} {key : Key} {slot : Slot Key Data}
  {slots : List (Slot Key Data)} {keys : List Key}

inductive Op (Key Data : Type) where
  | add (key : Key) (data : Data)
  | update (key : Key) (data : Data)

inductive Reply (Data : Type) where
  | added (result : AddResult Data)
  | updated (success : Bool)
  deriving DecidableEq

/-- Neither `HASH_OVERFLOW` nor `FAIL`. -/
def Reply.Accepted : Reply Data → Prop
  | .added .success => True
  | .added (.collision _) => True
  | .added .overflow => False
  | .added .fail => False
  | .updated success => success = true

def hashStep [DecidableEq Data] (callbacks : Callbacks Key)
    (table : Table Key Data) : Op Key Data → Option (Table Key Data × Reply Data)
  | .add key data => do
      let (after, result) ← hashAdd callbacks table key data
      some (after, .added result)
  | .update key data => do
      let (after, success) ← hashUpdate callbacks table key data
      some (after, .updated success)

def hashRun [DecidableEq Data] (callbacks : Callbacks Key) :
    Table Key Data → List (Op Key Data) →
      Option (Table Key Data × List (Reply Data))
  | table, [] => some (table, [])
  | table, op :: rest => do
      let (after, reply) ← hashStep callbacks table op
      let (final, replies) ← hashRun callbacks after rest
      some (final, reply :: replies)

def Op.write (keyEq : Key → Key → Bool) (key : Key) (current : Option Data) :
    Op Key Data → Option Data
  | .add added data =>
    if keyEq added key then some (current.getD data) else current
  | .update updated data =>
    if keyEq updated key then current.map fun _ => data else current

/-- The data of the first `add` of `key`, as replaced by later updates. -/
def written (keyEq : Key → Key → Bool) (ops : List (Op Key Data)) (key : Key) :
    Option Data :=
  ops.foldl (Op.write keyEq key) none

def Op.keep (keyEq : Key → Key → Bool) (keys : List Key) :
    Op Key Data → List Key
  | .add added _ =>
    if keys.any fun key => keyEq key added then keys else added :: keys
  | .update _ _ => keys

def distinctKeys (keyEq : Key → Key → Bool) (ops : List (Op Key Data)) :
    List Key :=
  ops.foldl (Op.keep keyEq) []

/-- The keys `hash_add` was called with. -/
def Added (keyEq : Key → Key → Bool) (ops : List (Op Key Data)) (key : Key) :
    Prop :=
  ∃ added data, .add added data ∈ ops ∧ keyEq added key = true

theorem added_cons_add {keyEq : Key → Key → Bool} {added : Key} {data : Data}
    {rest : List (Op Key Data)} :
    Added keyEq (.add added data :: rest) key ↔
      keyEq added key = true ∨ Added keyEq rest key := by
  constructor
  · rintro ⟨other, stored, member, equal⟩
    rcases List.mem_cons.mp member with same | inside
    · cases same
      exact .inl equal
    · exact .inr ⟨other, stored, inside, equal⟩
  · rintro (equal | ⟨other, stored, inside, equal⟩)
    · exact ⟨added, data, List.mem_cons_self, equal⟩
    · exact ⟨other, stored, List.mem_cons_of_mem _ inside, equal⟩

theorem added_cons_update {keyEq : Key → Key → Bool} {updated : Key} {data : Data}
    {rest : List (Op Key Data)} :
    Added keyEq (.update updated data :: rest) key ↔ Added keyEq rest key := by
  simp [Added]

theorem isSome_foldl_write (keyEq : Key → Key → Bool) (ops : List (Op Key Data))
    (key : Key) (current : Option Data) :
    (ops.foldl (Op.write keyEq key) current).isSome = true ↔
      current.isSome = true ∨ Added keyEq ops key := by
  induction ops generalizing current with
  | nil => simp [Added]
  | cons op rest induction =>
    rw [List.foldl_cons, induction]
    cases op with
    | add added data =>
      cases same : keyEq added key <;> simp [Op.write, added_cons_add, same]
    | update updated data =>
      cases same : keyEq updated key <;>
        simp [Op.write, added_cons_update, same]

theorem isSome_written (keyEq : Key → Key → Bool) (ops : List (Op Key Data))
    (key : Key) :
    (written keyEq ops key).isSome = true ↔ Added keyEq ops key := by
  rw [written, isSome_foldl_write]
  simp

def Agrees (callbacks : Callbacks Key) (slots : List (Slot Key Data)) (key : Key) :
    Option Data → Prop
  | none => ∀ slot ∈ slots, callbacks.keyEq slot.key key = false
  | some data => ∃ slot ∈ slots,
      callbacks.keyEq slot.key key = true ∧ slot.data = data

structure Represents (callbacks : Callbacks Key) (table : Table Key Data)
    (current : Key → Option Data) (keys : List Key) : Prop where
  formed : WellFormed table
  keyed : Keyed callbacks (allSlots table)
  keys_perm : ((allSlots table).map Slot.key).Perm keys
  nSlot_eq : table.nSlot = (allSlots table).length
  agrees : ∀ key, Agrees callbacks (allSlots table) key (current key)

theorem Agrees.perm {other : List (Slot Key Data)} {value : Option Data}
    (agrees : Agrees callbacks slots key value) (perm : other.Perm slots) :
    Agrees callbacks other key value := by
  cases value with
  | none => exact fun slot member => agrees slot (perm.mem_iff.mp member)
  | some data =>
    obtain ⟨slot, member, equal, same⟩ := agrees
    exact ⟨slot, perm.mem_iff.mpr member, equal, same⟩

theorem Agrees.cons {value : Option Data} (agrees : Agrees callbacks slots key value)
    (differs : callbacks.keyEq slot.key key = false) :
    Agrees callbacks (slot :: slots) key value := by
  cases value with
  | none =>
    intro other member
    rcases List.mem_cons.mp member with rfl | inside
    · exact differs
    · exact agrees other inside
  | some data =>
    obtain ⟨other, member, equal, same⟩ := agrees
    exact ⟨other, List.mem_cons_of_mem _ member, equal, same⟩

theorem Agrees.of_cons {value : Option Data} (agrees : Agrees callbacks (slot :: slots) key value)
    (differs : callbacks.keyEq slot.key key = false) :
    Agrees callbacks slots key value := by
  cases value with
  | none => exact fun other member => agrees other (List.mem_cons_of_mem _ member)
  | some data =>
    obtain ⟨other, member, equal, same⟩ := agrees
    rcases List.mem_cons.mp member with rfl | inside
    · rw [differs] at equal
      cases equal
    · exact ⟨other, inside, equal, same⟩

theorem Agrees.isSome {value : Option Data} (agrees : Agrees callbacks slots key value)
    (member : slot ∈ slots) (equal : callbacks.keyEq slot.key key = true) :
    value.isSome = true := by
  cases value with
  | none =>
    rw [agrees slot member] at equal
    cases equal
  | some data => rfl

theorem Represents.any_keys {table : Table Key Data} {current : Key → Option Data}
    (represents : Represents callbacks table current keys) (key : Key) :
    keys.any (fun kept => callbacks.keyEq kept key) = true ↔
      ∃ slot ∈ allSlots table, callbacks.keyEq slot.key key = true := by
  have perm := represents.keys_perm
  simp only [List.any_eq_true, ← perm.mem_iff, List.mem_map]
  constructor
  · rintro ⟨_, ⟨slot, member, rfl⟩, equal⟩
    exact ⟨slot, member, equal⟩
  · rintro ⟨slot, member, equal⟩
    exact ⟨_, ⟨slot, member, rfl⟩, equal⟩

theorem Represents.current_of_mem {table : Table Key Data} {current : Key → Option Data}
    (laws : KeyLaws callbacks) (represents : Represents callbacks table current keys)
    (member : slot ∈ allSlots table) (equal : callbacks.keyEq slot.key key = true) :
    current key = some slot.data := by
  have agrees := represents.agrees key
  cases value : current key with
  | none =>
    rw [value] at agrees
    rw [agrees slot member] at equal
    cases equal
  | some data =>
    rw [value] at agrees
    obtain ⟨other, otherIn, otherEq, rfl⟩ := agrees
    rw [represents.keyed.unique laws member otherIn equal otherEq]

theorem Represents.current_of_absent {table : Table Key Data} {current : Key → Option Data}
    {other : Key} (laws : KeyLaws callbacks) (represents : Represents callbacks table current keys)
    (absent : Absent callbacks table key) (same : callbacks.keyEq key other = true) :
    current other = none := by
  cases value : current other with
  | none => rfl
  | some stored =>
    have agrees := represents.agrees other
    rw [value] at agrees
    obtain ⟨slot, member, equal, _⟩ := agrees
    have differs := absent slot member
    rw [laws.trans equal (laws.symm same)] at differs
    cases differs

section Steps

variable {callbacks : Callbacks Key}
  {table after : Table Key Data} {current : Key → Option Data}
  {keys : List Key} {key : Key} {data : Data}

theorem Represents.add_present (laws : KeyLaws callbacks)
    (represents : Represents callbacks table current keys) (member : slot ∈ allSlots table)
    (equal : callbacks.keyEq slot.key key = true) :
    Represents callbacks table
      (fun other => (Op.add key data).write callbacks.keyEq other (current other))
      ((Op.add key data).keep callbacks.keyEq keys) := by
  have kept := (represents.any_keys key).mpr ⟨slot, member, equal⟩
  refine { represents with
    keys_perm := by
      simp only [Op.keep, kept, if_true]
      exact represents.keys_perm
    agrees := ?_ }
  intro other
  have agrees := represents.agrees other
  simp only [Op.write]
  split
  case isTrue same =>
    have present := agrees.isSome member (laws.trans equal same)
    obtain ⟨stored, value⟩ := Option.isSome_iff_exists.mp present
    rw [value] at agrees ⊢
    exact agrees
  case isFalse => exact agrees

theorem Represents.add_absent (laws : KeyLaws callbacks)
    (represents : Represents callbacks table current keys)
    (absent : Absent callbacks table key)
    (inserted : Inserted callbacks table key data after) :
    Represents callbacks after
      (fun other => (Op.add key data).write callbacks.keyEq other (current other))
      ((Op.add key data).keep callbacks.keyEq keys) := by
  have fresh : ¬ keys.any (fun kept => callbacks.keyEq kept key) = true := by
    rw [represents.any_keys]
    rintro ⟨slot, member, equal⟩
    rw [absent slot member] at equal
    cases equal
  have keyed : Keyed callbacks (newSlot callbacks key data :: allSlots table) := by
    refine ⟨?_, List.pairwise_cons.mpr ⟨?_, represents.keyed.distinct⟩⟩
    · intro slot member
      rcases List.mem_cons.mp member with rfl | inside
      · rfl
      · exact represents.keyed.hashkey_eq slot inside
    · exact fun slot member => laws.not_symm (absent slot member)
  refine ⟨inserted.formed, keyed.perm laws inserted.slots, ?_, ?_, ?_⟩
  · simp only [Op.keep, if_neg fresh]
    exact (inserted.slots.map _).trans (represents.keys_perm.cons key)
  · rw [inserted.nSlot_eq, inserted.slots.length_eq, represents.nSlot_eq,
      List.length_cons]
  · intro other
    refine Agrees.perm ?_ inserted.slots
    have agrees := represents.agrees other
    simp only [Op.write]
    split
    case isTrue same =>
      rw [represents.current_of_absent laws absent same]
      exact ⟨_, List.mem_cons_self, same, rfl⟩
    case isFalse differs =>
      exact agrees.cons (by simpa [newSlot] using differs)

theorem Represents.update_present (laws : KeyLaws callbacks)
    (represents : Represents callbacks table current keys) {rest : List (Slot Key Data)}
    (equal : callbacks.keyEq slot.key key = true) (formed : WellFormed after)
    (before : (allSlots table).Perm (slot :: rest))
    (replaced : (allSlots after).Perm ({ slot with data := data } :: rest))
    (sameCount : after.nSlot = table.nSlot) :
    Represents callbacks after
      (fun other => (Op.update key data).write callbacks.keyEq other
        (current other))
      ((Op.update key data).keep callbacks.keyEq keys) := by
  have keyed := represents.keyed.perm laws before.symm
  have keyedAfter : Keyed callbacks ({ slot with data := data } :: rest) := by
    obtain ⟨apart, restApart⟩ := List.pairwise_cons.mp keyed.distinct
    refine ⟨?_, List.pairwise_cons.mpr ⟨apart, restApart⟩⟩
    intro other member
    rcases List.mem_cons.mp member with rfl | inside
    · exact keyed.hashkey_eq slot List.mem_cons_self
    · exact keyed.hashkey_eq other (List.mem_cons_of_mem _ inside)
  refine ⟨formed, keyedAfter.perm laws replaced, ?_, ?_, ?_⟩
  · have names := (replaced.map Slot.key).trans (before.map Slot.key).symm
    exact names.trans represents.keys_perm
  · rw [sameCount, represents.nSlot_eq, replaced.length_eq, before.length_eq]
    rfl
  · intro other
    refine Agrees.perm ?_ replaced
    have agrees := (represents.agrees other).perm before.symm
    simp only [Op.write]
    split
    case isTrue same =>
      have hit := laws.trans equal same
      have present := agrees.isSome List.mem_cons_self hit
      obtain ⟨stored, value⟩ := Option.isSome_iff_exists.mp present
      rw [value]
      exact ⟨_, List.mem_cons_self, hit, rfl⟩
    case isFalse differs =>
      have apart : callbacks.keyEq slot.key other = false := by
        cases hit : callbacks.keyEq slot.key other with
        | false => rfl
        | true => exact absurd (laws.trans (laws.symm equal) hit) differs
      exact (agrees.of_cons apart).cons apart

variable [DecidableEq Data]

theorem Represents.step (laws : KeyLaws callbacks)
    (represents : Represents callbacks table current keys) {op : Op Key Data}
    {reply : Reply Data}
    (stepped : hashStep callbacks table op = some (after, reply))
    (accepted : reply.Accepted) :
    Represents callbacks after
      (fun other => op.write callbacks.keyEq other (current other))
      (op.keep callbacks.keyEq keys) := by
  cases op with
  | add key data =>
    simp only [hashStep, Option.bind_eq_bind, Option.bind_eq_some_iff] at stepped
    obtain ⟨⟨final, result⟩, added, same⟩ := stepped
    cases same
    rcases hashAddFuel_spec laws represents.formed represents.keyed added with
      ⟨slot, member, equal, rfl, _⟩ | ⟨absent, rfl | ⟨_, inserted⟩⟩
    · exact represents.add_present laws member equal
    · exact accepted.elim
    · exact represents.add_absent laws absent inserted
  | update key data =>
    simp only [hashStep, Option.bind_eq_bind, Option.bind_eq_some_iff] at stepped
    obtain ⟨⟨final, success⟩, updated, same⟩ := stepped
    cases same
    by_cases present : ∃ slot ∈ allSlots table,
        callbacks.keyEq slot.key key = true
    · obtain ⟨slot, member, equal⟩ := present
      obtain ⟨result, rest, computed, formed, before, replaced, count⟩ :=
        hashUpdate_present laws data represents.formed represents.keyed
          member equal
      cases computed.symm.trans updated
      exact represents.update_present laws equal formed before replaced count
    · have absent : Absent callbacks table key := by
        intro slot member
        cases hit : callbacks.keyEq slot.key key with
        | false => rfl
        | true => exact absurd ⟨slot, member, hit⟩ present
      cases (hashUpdate_absent data represents.formed absent).symm.trans updated
      cases accepted

theorem Represents.run (laws : KeyLaws callbacks)
    (represents : Represents callbacks table current keys)
    {ops : List (Op Key Data)} {replies : List (Reply Data)}
    (ran : hashRun callbacks table ops = some (after, replies))
    (accepted : ∀ reply ∈ replies, reply.Accepted) :
    Represents callbacks after
      (fun other => ops.foldl (Op.write callbacks.keyEq other) (current other))
      (ops.foldl (Op.keep callbacks.keyEq) keys) := by
  induction ops generalizing table current keys replies with
  | nil =>
    cases ran
    exact represents
  | cons op rest induction =>
    simp only [hashRun, Option.bind_eq_bind, Option.bind_eq_some_iff] at ran
    obtain ⟨⟨next, reply⟩, stepped, ⟨final, others⟩, ranRest, same⟩ := ran
    cases same
    refine induction (represents.step laws stepped
      (accepted reply List.mem_cons_self)) ranRest ?_
    exact fun other member => accepted other (List.mem_cons_of_mem _ member)

end Steps

theorem hashOpen_represents {initDepth : Nat} {table : Table Key Data}
    (opened : hashOpen callbacks initDepth .sorted = some table) :
    Represents callbacks table (fun _ => none) [] := by
  obtain ⟨formed, empty, zero⟩ := hashOpen_formed opened
  refine ⟨formed, ?_, ?_, ?_, ?_⟩ <;> rw [empty]
  · exact ⟨by simp, List.Pairwise.nil⟩
  · exact List.Perm.refl _
  · exact zero
  · intro key slot member
    cases member

theorem Represents.search (laws : KeyLaws callbacks) {table : Table Key Data}
    {current : Key → Option Data} (represents : Represents callbacks table current keys)
    (key : Key) :
    hashSearch callbacks table key = some (current key) := by
  have agrees := represents.agrees key
  cases value : current key with
  | none =>
    rw [value] at agrees
    exact hashSearch_absent represents.formed agrees
  | some data =>
    rw [value] at agrees
    obtain ⟨slot, member, equal, rfl⟩ := agrees
    exact hashSearch_present laws represents.formed represents.keyed member equal

theorem Represents.collision [DecidableEq Data] (laws : KeyLaws callbacks) {table : Table Key Data}
    {current : Key → Option Data} (represents : Represents callbacks table current keys)
    {data stored : Data} (value : current key = some stored) (differs : stored ≠ data) :
    hashAdd callbacks table key data = some (table, .collision stored) := by
  have agrees := represents.agrees key
  rw [value] at agrees
  obtain ⟨slot, member, equal, rfl⟩ := agrees
  unfold hashAdd
  rw [hashAddFuel_present laws _ data represents.formed represents.keyed member
    equal, if_neg differs]

theorem hashRun_first_write_wins [DecidableEq Data] {callbacks : Callbacks Key}
    (laws : KeyLaws callbacks) {initDepth : Nat} {start table : Table Key Data}
    {ops : List (Op Key Data)} {replies : List (Reply Data)}
    (opened : hashOpen callbacks initDepth .sorted = some start)
    (ran : hashRun callbacks start ops = some (table, replies))
    (accepted : ∀ reply ∈ replies, reply.Accepted) :
    (∀ key, hashSearch callbacks table key =
      some (written callbacks.keyEq ops key)) ∧
    (∀ key, (written callbacks.keyEq ops key).isSome = true ↔
      Added callbacks.keyEq ops key) ∧
    (∀ key data stored, written callbacks.keyEq ops key = some stored →
      stored ≠ data →
      hashAdd callbacks table key data = some (table, .collision stored)) ∧
    table.nSlot = (distinctKeys callbacks.keyEq ops).length := by
  have represents := (hashOpen_represents opened).run laws ran accepted
  refine ⟨represents.search laws, isSome_written _ ops, ?_, ?_⟩
  · intro key data stored value differs
    exact represents.collision laws value differs
  · rw [represents.nSlot_eq]
    have sameLength := represents.keys_perm.length_eq
    rwa [List.length_map] at sameLength

def byteCallbacks : Callbacks Nat where
  hashFunc := fun key _ => UInt8.ofNat key
  keyEq := fun first second => first == second
  allocData := fun _ => true

theorem byteCallbacks_laws : KeyLaws byteCallbacks where
  refl := fun key => beq_self_eq_true key
  symm := fun equal => by
    simp only [byteCallbacks, beq_iff_eq] at equal ⊢
    exact equal.symm
  trans := fun first second => by
    simp only [byteCallbacks, beq_iff_eq] at first second ⊢
    exact first.trans second
  hashed := fun equal => by
    simp only [byteCallbacks, beq_iff_eq] at equal
    rw [equal]

theorem hashRun_first_write_wins_collision :
    ∃ start table : Table Nat Nat,
      hashOpen byteCallbacks 0 .sorted = some start ∧
      hashRun byteCallbacks start
        [.add 5 10, .add 7 1, .add 5 20, .update 5 30] =
          some (table, [.added .success, .added .success,
            .added (.collision 10), .updated true]) ∧
      hashSearch byteCallbacks table 5 = some (some 30) ∧ table.nSlot = 2 := by
  let start : Table Nat Nat :=
    { directory := fun index => if index < 1 then index else 0
      bucket := fun _ => { slots := [], depth := 0, sorted := .sorted }
      depth := 0
      sorted := .sorted
      nSlot := 0
      nMemBlock := 1
      nBucket := 1 }
  have opened : hashOpen byteCallbacks 0 .sorted = some start := rfl
  have replied : (hashRun byteCallbacks start
      [.add 5 10, .add 7 1, .add 5 20, .update 5 30]).map Prod.snd =
      some [.added .success, .added .success, .added (.collision 10),
        .updated true] := by
    decide +kernel
  obtain ⟨⟨table, replies⟩, ran, same⟩ := Option.map_eq_some_iff.mp replied
  cases same
  obtain ⟨search, _, _, count⟩ := hashRun_first_write_wins byteCallbacks_laws
    opened ran (by simp [Reply.Accepted])
  exact ⟨start, table, opened, ran, search 5, count⟩

end Wisebot.Hash
