import Wisebot.Hash.Refusal

namespace Wisebot.Hash

open Lib

/-! Runs of calls on one hash, with any mixture of adds, updates and deletes. -/

variable {Key Data : Type} {callbacks : Callbacks Key} {table : Table Key Data}
  {shared : Shared Key Data} {success : Bool}

inductive Call (Key Data : Type) where
  | write (op : Op Key Data)
  | delete (key : Key)

inductive Answer (Data : Type) where
  | written (reply : Reply Data)
  | deleted (success : Bool)
  deriving DecidableEq

def hashCall [DecidableEq Data] (callbacks : Callbacks Key) (shared : Shared Key Data) :
    Call Key Data → Option (Shared Key Data × Answer Data)
  | .write op => do
      let (after, reply) ← hashStep callbacks shared.table op
      some ({ shared with table := after }, .written reply)
  | .delete key => do
      let (after, success) ← hashDelete callbacks shared key
      some (after, .deleted success)

def callStep [DecidableEq Data] (callbacks : Callbacks Key) (shared : Shared Key Data)
    (call : Call Key Data) : Option (Shared Key Data) :=
  (hashCall callbacks shared call).map Prod.fst

def Within (callbacks : Callbacks Key) (shared : Shared Key Data) : Call Key Data → Prop
  | .write (.add key _) => ¬ RunsOut callbacks key shared.table
  | _ => True

/-- What holds of a sorted table when the flags of its slots are left aside. -/
structure Sound (callbacks : Callbacks Key) (table : Table Key Data) : Prop where
  formed : WellFormed table.unflagged
  keyed : Keyed callbacks (allSlots table.unflagged)

theorem Keyed.cons (laws : KeyLaws callbacks) {key : Key} (keyed : Keyed callbacks (allSlots table))
    (absent : Absent callbacks table key) (data : Data) :
    Keyed callbacks (newSlot callbacks key data :: allSlots table) := by
  refine ⟨fun slot member => ?_, List.pairwise_cons.mpr ⟨?_, keyed.distinct⟩⟩
  · rcases List.mem_cons.mp member with rfl | inside
    · rfl
    · exact keyed.hashkey_eq slot inside
  · exact fun slot member => laws.not_symm (absent slot member)

theorem Keyed.replace {slot : Slot Key Data} {rest : List (Slot Key Data)}
    (keyed : Keyed callbacks (slot :: rest)) (data : Data) :
    Keyed callbacks ({ slot with data := data } :: rest) := by
  obtain ⟨apart, restApart⟩ := List.pairwise_cons.mp keyed.distinct
  refine ⟨fun other member => ?_, List.pairwise_cons.mpr ⟨apart, restApart⟩⟩
  rcases List.mem_cons.mp member with rfl | inside
  · exact keyed.hashkey_eq slot List.mem_cons_self
  · exact keyed.hashkey_eq other (List.mem_cons_of_mem _ inside)

section Steps

variable {callbacks : Callbacks Key} {table after : Table Key Data} {key : Key} {data : Data}

theorem Sound.hashAdd [DecidableEq Data] {reply : AddResult Data} (laws : KeyLaws callbacks)
    (sound : Sound callbacks table) (within : ¬ RunsOut callbacks key table)
    (added : hashAdd callbacks table key data = some (after, reply)) :
    Sound callbacks after := by
  have cleared : Hash.hashAdd callbacks table.unflagged key data =
      some (after.unflagged, reply) := by
    rw [Hash.hashAdd, hashAddFuel_unflagged, show hashAddFuel callbacks (hashMaxBucket + 1) table
      key data = some (after, reply) from added]
    rfl
  rcases hashAddFuel_spec laws sound.formed sound.keyed cleared with
    ⟨_, _, _, same, _⟩ | ⟨absent, rfl | ⟨_, inserted⟩⟩
  · exact ⟨same ▸ sound.formed, same ▸ sound.keyed⟩
  · rcases hashAddFuel_overflow laws sound.formed sound.keyed cleared with
      ⟨_, formed, perm, _⟩ | ⟨out, _⟩
    · exact ⟨formed, sound.keyed.perm laws perm⟩
    · exact absurd (RunsOut.unflagged_iff.mp out) within
  · exact ⟨inserted.formed, (sound.keyed.cons laws absent data).perm laws inserted.slots⟩

theorem Sound.hashUpdate (laws : KeyLaws callbacks) (sound : Sound callbacks table)
    (updated : hashUpdate callbacks table key data = some (after, success)) :
    Sound callbacks after := by
  have cleared : Hash.hashUpdate callbacks table.unflagged key data =
      some (after.unflagged, success) := by
    rw [hashUpdate_unflagged, updated]
    rfl
  rcases absent_or_stored callbacks table.unflagged key with absent | ⟨slot, member, equal⟩
  · have same := (hashUpdate_absent data sound.formed absent).symm.trans cleared
    obtain ⟨same, -⟩ := Prod.mk.inj (Option.some.inj same)
    exact ⟨same ▸ sound.formed, same ▸ sound.keyed⟩
  · obtain ⟨changed, rest, computed, formed, before, replaced, _⟩ :=
      hashUpdate_present laws data sound.formed sound.keyed member equal
    obtain ⟨rfl, -⟩ := Prod.mk.inj (Option.some.inj (computed.symm.trans cleared))
    exact ⟨formed, ((sound.keyed.perm laws before.symm).replace data).perm laws replaced⟩

theorem BucketLayout.eraseIdx {depth blockIdx home : Nat} {directory : Nat → Nat}
    {bucket : Bucket Key Data} (layout : BucketLayout depth directory blockIdx home bucket)
    (slotnum : Nat) :
    BucketLayout depth directory blockIdx home
      { bucket with slots := bucket.slots.eraseIdx slotnum } := by
  have sublist := List.eraseIdx_sublist bucket.slots slotnum
  exact { layout with
    sorted := layout.sorted.sublist sublist
    length_le := sublist.length_le.trans layout.length_le
    prefixed := fun slot member => layout.prefixed slot (sublist.subset member)
    kept := fun slot member => layout.kept slot (sublist.subset member) }

theorem Sound.deleteSlot (laws : KeyLaws callbacks) (formed : WellFormed table)
    (keyed : Keyed callbacks (allSlots table)) {row : Nat × Nat}
    (deleted : deleteSlot table row = some after) :
    WellFormed after ∧ Keyed callbacks (allSlots after) := by
  rw [Hash.deleteSlot] at deleted
  split at deleted
  case h_1 => cases deleted
  case h_2 blockIdx inDirectory =>
    split at deleted
    case h_1 => cases deleted
    case h_2 bucket inBlocks =>
      obtain ⟨-, rfl⟩ := getBucket_eq_some.mp inBlocks
      split at deleted
      case isTrue =>
        cases deleted
        exact ⟨formed, keyed⟩
      case isFalse =>
        cases deleted
        obtain ⟨home, layout⟩ := formed
        by_cases bound : blockIdx < table.nBucket
        · refine ⟨⟨home, layout.setBucket ((layout.buckets _ bound).eraseIdx row.2)⟩, ?_⟩
          obtain ⟨rest, before, replaced⟩ := setBucket_slots table bound
          have keyedBefore := keyed.perm laws before.symm
          have sublist := (List.eraseIdx_sublist (table.bucket blockIdx).slots row.2).append_right
            rest
          have fewer : Keyed callbacks
              ((table.bucket blockIdx).slots.eraseIdx row.2 ++ rest) :=
            ⟨fun slot member => keyedBefore.hashkey_eq slot (sublist.subset member),
              keyedBefore.distinct.sublist sublist⟩
          exact fewer.perm laws (replaced _)
        · -- a bucket that is not in use yet
          have others : ∀ other < table.nBucket,
              (table.setBucket blockIdx { table.bucket blockIdx with
                slots := (table.bucket blockIdx).slots.eraseIdx row.2 }).bucket other =
              table.bucket other := by
            intro other otherBound
            exact Function.update_of_ne (by omega) _ _
          have same : allSlots (table.setBucket blockIdx { table.bucket blockIdx with
              slots := (table.bucket blockIdx).slots.eraseIdx row.2 }) = allSlots table := by
            apply List.flatMap_congr
            intro other member
            rw [others other (List.mem_range.mp member)]
          refine ⟨⟨home, layout.depth_le, layout.flag, layout.nBucket_le, layout.directory_lt,
            fun other otherBound => ?_⟩, same ▸ keyed⟩
          rw [others other otherBound]
          exact layout.buckets other otherBound

theorem Sound.deleteSlots (laws : KeyLaws callbacks) {rows : List (Nat × Nat)}
    (formed : WellFormed table) (keyed : Keyed callbacks (allSlots table))
    (deleted : deleteSlots table rows = some after) :
    WellFormed after ∧ Keyed callbacks (allSlots after) := by
  induction rows generalizing table with
  | nil =>
    cases deleted
    exact ⟨formed, keyed⟩
  | cons row rest induction =>
    rw [Hash.deleteSlots] at deleted
    split at deleted
    case h_1 => cases deleted
    case h_2 next first =>
      obtain ⟨nextFormed, nextKeyed⟩ := Sound.deleteSlot laws formed keyed first
      exact induction nextFormed nextKeyed deleted

theorem Sound.hashDelete {next : Shared Key Data} (laws : KeyLaws callbacks)
    (sound : Sound callbacks shared.table)
    (deleted : hashDelete callbacks shared key = some (next, success)) :
    Sound callbacks next.table := by
  obtain ⟨_, _, _, ⟨_, _, rfl⟩ | ⟨_, _, _, _, _, same | purging⟩⟩ := hashDelete_cases deleted
  · exact sound
  · exact ⟨same ▸ sound.formed, same ▸ sound.keyed⟩
  · obtain ⟨formed, keyed⟩ := Sound.deleteSlots laws sound.formed sound.keyed purging
    exact ⟨formed, keyed⟩

end Steps

/-! ### Tables that are not sorted

They are never split, so no bucket is as deep as the largest directory. -/

structure Unsplit (table : Table Key Data) : Prop where
  flag : table.sorted ≠ .sorted
  depth_le : table.depth ≤ hashMaxDepth
  shallow : ∀ blockIdx, (table.bucket blockIdx).depth < hashMaxDepth

theorem Unsplit.setBucket {blockIdx : Nat} {bucket : Bucket Key Data} (unsplit : Unsplit table)
    (shallow : bucket.depth < hashMaxDepth) :
    Unsplit (table.setBucket blockIdx bucket) := by
  refine ⟨unsplit.flag, unsplit.depth_le, fun other => ?_⟩
  simp only [Table.setBucket]
  by_cases same : other = blockIdx
  · subst same
    rwa [Function.update_self]
  · rw [Function.update_of_ne same]
    exact unsplit.shallow other

theorem Unsplit.storeAt (unsplit : Unsplit table) (blockIdx position : Nat) (slot : Slot Key Data) :
    Unsplit (storeAt table blockIdx position slot) := by
  have kept : Unsplit (table.setBucket blockIdx { table.bucket blockIdx with
      slots := (table.bucket blockIdx).slots.take position ++
        slot :: (table.bucket blockIdx).slots.drop position }) :=
    unsplit.setBucket (unsplit.shallow blockIdx)
  exact ⟨kept.flag, kept.depth_le, kept.shallow⟩

theorem Unsplit.not_split {parted : Table Key Data} {bucketIdx : Nat} (unsplit : Unsplit table) :
    partitionBucket callbacks table bucketIdx ≠ some (parted, true) := by
  intro parting
  exact unsplit.flag (partitionBucket_split parting).1

theorem Unsplit.widened {widened : Table Key Data} {blockIdx : Nat} (unsplit : Unsplit table)
    (wide : Widened table blockIdx widened) : Unsplit widened := by
  rcases wide with ⟨_, grown⟩ | ⟨_, rfl⟩
  · have shallow := doubleTable_grown grown
    rw [doubleTable] at grown
    split at grown
    case isTrue => cases grown
    case isFalse =>
      cases grown
      exact ⟨unsplit.flag, shallow, unsplit.shallow⟩
  · exact unsplit

theorem Unsplit.not_runsOut {key : Key} (unsplit : Unsplit table) :
    ¬ RunsOut callbacks key table := by
  intro out
  cases out with
  | @exhausted _ blockIdx probe full level deepest =>
    have shallow := unsplit.shallow blockIdx
    omega
  | later recurses again =>
    obtain ⟨_, _, _, _, wide, parting⟩ := recurses
    exact (unsplit.widened wide).not_split parting

theorem getPrefix_lt (hashkey : HashKey) {depth : Nat} (bound : depth ≤ 32) :
    getPrefix hashkey depth < 2 ^ depth := by
  rw [getPrefix_eq hashkey bound, Nat.div_lt_iff_lt_mul (Nat.two_pow_pos _), ← Nat.pow_add,
    Nat.add_sub_of_le bound]
  exact hashkey.value_lt

theorem doubleTable_keeps {doubled : Table Key Data} (grown : doubleTable table = (doubled, true))
    (hashkey : HashKey) :
    doubled.directory (getPrefix hashkey doubled.depth) =
        table.directory (getPrefix hashkey table.depth) ∧
      doubled.bucket = table.bucket ∧ doubled.depth = table.depth + 1 := by
  have shallow : table.depth < 22 := doubleTable_grown grown
  rw [doubleTable] at grown
  split at grown
  case isTrue => cases grown
  case isFalse =>
    cases grown
    have inside := getPrefix_lt hashkey (show table.depth + 1 ≤ 32 by omega)
    have half : getPrefix hashkey (table.depth + 1) / 2 = getPrefix hashkey table.depth := by
      rw [getPrefix_eq _ (by omega), getPrefix_eq _ (by omega)]
      exact (value_div_half _ (by omega)).symm
    exact ⟨by simp only [spreadDown_apply, if_pos inside, half], rfl, rfl⟩

theorem directoryAt_getPrefix (bound : table.depth ≤ hashMaxDepth) (hashkey : HashKey) :
    table.directoryAt (getPrefix hashkey table.depth) =
      some (table.directory (getPrefix hashkey table.depth)) := by
  have depth : table.depth ≤ 22 := bound
  exact directoryAt_eq_some.mpr ⟨(getPrefix_lt hashkey (by omega)).trans_le
    (Nat.pow_le_pow_right (by decide) bound), rfl⟩

theorem hashSearch_doubled {doubled : Table Key Data} (grown : doubleTable table = (doubled, true))
    (key : Key) :
    hashSearch callbacks doubled key = hashSearch callbacks table key := by
  have shallow := doubleTable_grown grown
  obtain ⟨directory, buckets, depth⟩ := doubleTable_keeps grown (callbacks.hashFunc key)
  rw [hashSearch, hashSearch, directoryAt_getPrefix (by omega), directoryAt_getPrefix (by omega),
    directory]
  simp only [Table.getBucket, buckets]

theorem Unsplit.usable_self (unsplit : Unsplit table) : Usable callbacks table table := by
  have depth : table.depth ≤ 22 := unsplit.depth_le
  refine ⟨fun _ => rfl, fun key => ?_⟩
  exact (getPrefix_lt _ (by omega)).trans_le (Nat.pow_le_pow_right (by decide) unsplit.depth_le)

theorem Unsplit.usable {widened parted : Table Key Data} {blockIdx bucketIdx : Nat}
    (unsplit : Unsplit table) (wide : Widened table blockIdx widened)
    (refused : partitionBucket callbacks widened bucketIdx = some (parted, false)) :
    Usable callbacks table parted := by
  have wideUsable : Usable callbacks widened widened := (unsplit.widened wide).usable_self
  obtain ⟨nMemBlock, rfl⟩ := partitionBucket_refused refused
  refine ⟨fun key => ?_, wideUsable.indices⟩
  rcases wide with ⟨_, grown⟩ | ⟨_, rfl⟩
  · exact hashSearch_doubled grown key
  · rfl

section Steps

variable {callbacks : Callbacks Key} {table after : Table Key Data} {key : Key} {data : Data}

theorem Unsplit.hashAdd [DecidableEq Data] {reply : AddResult Data} (unsplit : Unsplit table)
    (added : hashAdd callbacks table key data = some (after, reply)) :
    Unsplit after ∧ (reply = .overflow → Usable callbacks table after) := by
  cases hashAddFuel_cases added with
  | noBucket => exact ⟨unsplit, fun refused => by cases refused⟩
  | present probe stored same =>
    exact ⟨unsplit.setBucket (unsplit.shallow _), fun refused => by cases refused⟩
  | collision => exact ⟨unsplit, fun refused => by cases refused⟩
  | @undoubled blockIdx _ probe full refused level =>
    have deep := (doubleTable_refused refused).1
    have shallow := unsplit.shallow blockIdx
    omega
  | unsplit probe full wide refused =>
    have usable := unsplit.usable wide refused
    obtain ⟨nMemBlock, rfl⟩ := partitionBucket_refused refused
    have kept := unsplit.widened wide
    exact ⟨⟨kept.flag, kept.depth_le, kept.shallow⟩, fun _ => usable⟩
  | split probe full wide parting =>
    exact absurd parting (unsplit.widened wide).not_split
  | tooDeep => exact ⟨unsplit, fun refused => by cases refused⟩
  | tooMany => exact ⟨unsplit, fun _ => unsplit.usable_self⟩
  | insertSorted => exact ⟨unsplit.storeAt _ _ _, fun refused => by cases refused⟩
  | insertUnsorted => exact ⟨unsplit.storeAt _ _ _, fun refused => by cases refused⟩
  | sorting => exact ⟨unsplit, fun refused => by cases refused⟩

theorem Unsplit.hashUpdate (unsplit : Unsplit table)
    (updated : hashUpdate callbacks table key data = some (after, success)) : Unsplit after := by
  simp only [Hash.hashUpdate] at updated
  split at updated
  case h_1 => cases updated
  case h_2 blockIdx inDirectory =>
    split at updated
    case h_1 => cases updated
    case h_2 bucket inBlocks =>
      obtain ⟨-, rfl⟩ := getBucket_eq_some.mp inBlocks
      split at updated
      case h_1 =>
        cases updated
        exact unsplit
      case h_2 found hit =>
        split at updated
        case h_1 => cases updated
        case h_2 slot stored =>
          cases updated
          exact unsplit.setBucket (unsplit.shallow blockIdx)

theorem Unsplit.deleteSlot {row : Nat × Nat} (unsplit : Unsplit table)
    (deleted : deleteSlot table row = some after) : Unsplit after := by
  rw [Hash.deleteSlot] at deleted
  split at deleted
  case h_1 => cases deleted
  case h_2 blockIdx inDirectory =>
    split at deleted
    case h_1 => cases deleted
    case h_2 bucket inBlocks =>
      obtain ⟨-, rfl⟩ := getBucket_eq_some.mp inBlocks
      split at deleted
      case isTrue =>
        cases deleted
        exact unsplit
      case isFalse =>
        cases deleted
        exact unsplit.setBucket (unsplit.shallow blockIdx)

theorem Unsplit.deleteSlots {rows : List (Nat × Nat)} (unsplit : Unsplit table)
    (deleted : deleteSlots table rows = some after) : Unsplit after := by
  induction rows generalizing table with
  | nil =>
    cases deleted
    exact unsplit
  | cons row rest induction =>
    rw [Hash.deleteSlots] at deleted
    split at deleted
    case h_1 => cases deleted
    case h_2 next first => exact induction (unsplit.deleteSlot first) deleted

theorem Unsplit.unflagged_iff : Unsplit table.unflagged ↔ Unsplit table :=
  ⟨fun unsplit => ⟨unsplit.flag, unsplit.depth_le, unsplit.shallow⟩,
    fun unsplit => ⟨unsplit.flag, unsplit.depth_le, unsplit.shallow⟩⟩

theorem Unsplit.hashDelete {next : Shared Key Data} (unsplit : Unsplit shared.table)
    (deleted : hashDelete callbacks shared key = some (next, success)) : Unsplit next.table := by
  obtain ⟨_, _, _, ⟨_, _, rfl⟩ | ⟨_, _, _, _, _, same | purging⟩⟩ := hashDelete_cases deleted
  · exact unsplit
  · exact unflagged_iff.mp (same ▸ unflagged_iff.mpr unsplit)
  · exact unflagged_iff.mp ((unflagged_iff.mpr unsplit).deleteSlots purging)

end Steps

theorem hashOpen_unsplit {initDepth : Nat} {flag : SortFlag} (other : flag ≠ .sorted)
    (opened : hashOpen callbacks initDepth flag = some table) : Unsplit table := by
  rw [hashOpen] at opened
  split at opened
  case isTrue => cases opened
  case isFalse shallow =>
    split at opened
    case isTrue => cases opened
    case isFalse mapped =>
      split at opened
      case isFalse => cases opened
      case isTrue =>
        cases opened
        refine ⟨other, Nat.not_lt.mp shallow, fun _ => ?_⟩
        -- a directory of the largest size needs more blocks than there are
        rcases Nat.lt_or_eq_of_le (Nat.not_lt.mp shallow) with below | rfl
        · exact below
        · exact absurd (by decide) mapped

theorem hashOpen_unflagged {initDepth : Nat} {flag : SortFlag}
    (opened : hashOpen callbacks initDepth flag = some table) :
    table.unflagged = table := by
  rw [hashOpen] at opened
  split at opened
  case isTrue => cases opened
  case isFalse =>
    split at opened
    case isTrue => cases opened
    case isFalse =>
      split at opened
      case isFalse => cases opened
      case isTrue =>
        cases opened
        rfl

variable {callbacks : Callbacks Key}

theorem Sound.call [DecidableEq Data] (laws : KeyLaws callbacks) {next : Shared Key Data}
    {call : Call Key Data} (sound : Sound callbacks shared.table)
    (within : Within callbacks shared call) (stepped : callStep callbacks shared call = some next) :
    Sound callbacks next.table := by
  obtain ⟨⟨_, answer⟩, called, rfl⟩ := Option.map_eq_some_iff.mp stepped
  cases call with
  | write op =>
    obtain ⟨⟨after, reply⟩, wrote, same⟩ := Option.bind_eq_some_iff.mp called
    cases same
    cases op with
    | add key data =>
      obtain ⟨⟨_, result⟩, added, same⟩ := Option.bind_eq_some_iff.mp wrote
      cases same
      exact sound.hashAdd laws within added
    | update key data =>
      obtain ⟨⟨_, result⟩, updated, same⟩ := Option.bind_eq_some_iff.mp wrote
      cases same
      exact sound.hashUpdate laws updated
  | delete key =>
    obtain ⟨⟨_, success⟩, deleted, same⟩ := Option.bind_eq_some_iff.mp called
    cases same
    exact sound.hashDelete laws deleted

theorem Unsplit.call [DecidableEq Data] {next : Shared Key Data} {call : Call Key Data}
    (unsplit : Unsplit shared.table) (stepped : callStep callbacks shared call = some next) :
    Unsplit next.table := by
  obtain ⟨⟨_, answer⟩, called, rfl⟩ := Option.map_eq_some_iff.mp stepped
  cases call with
  | write op =>
    obtain ⟨⟨after, reply⟩, wrote, same⟩ := Option.bind_eq_some_iff.mp called
    cases same
    cases op with
    | add key data =>
      obtain ⟨⟨_, result⟩, added, same⟩ := Option.bind_eq_some_iff.mp wrote
      cases same
      exact (unsplit.hashAdd added).1
    | update key data =>
      obtain ⟨⟨_, result⟩, updated, same⟩ := Option.bind_eq_some_iff.mp wrote
      cases same
      exact unsplit.hashUpdate updated
  | delete key =>
    obtain ⟨⟨_, success⟩, deleted, same⟩ := Option.bind_eq_some_iff.mp called
    cases same
    exact unsplit.hashDelete deleted

theorem Reach.sound_or_unsplit [DecidableEq Data] (laws : KeyLaws callbacks) {initDepth : Nat}
    {flag : SortFlag} {start : Table Key Data}
    (opened : hashOpen callbacks initDepth flag = some start)
    (reached : Reach (callStep callbacks) (Within callbacks) ⟨start, []⟩ shared) :
    Sound callbacks shared.table ∨ Unsplit shared.table := by
  by_cases sorted : flag = .sorted
  · subst sorted
    refine .inl (reached.invariant (fun shared => Sound callbacks shared.table) ?_ ?_)
    · obtain ⟨formed, empty, _⟩ := hashOpen_formed opened
      refine ⟨?_, ?_⟩
      · rw [hashOpen_unflagged opened]
        exact formed
      · rw [hashOpen_unflagged opened, empty]
        exact ⟨by simp, .nil⟩
    · exact fun state call next sound within stepped => sound.call laws within stepped
  · refine .inr (reached.invariant (fun shared => Unsplit shared.table)
      (hashOpen_unsplit sorted opened) ?_)
    exact fun state call next unsplit _ stepped => unsplit.call stepped

end Wisebot.Hash
