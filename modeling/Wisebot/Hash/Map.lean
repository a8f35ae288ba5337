import Wisebot.Hash.Layout

namespace Wisebot.Hash

/-! `hash_add`, `hash_update` and `hash_search` on a well-formed table. -/

variable {Key Data : Type} {callbacks : Callbacks Key} {table : Table Key Data} {key : Key}

structure KeyLaws (callbacks : Callbacks Key) : Prop where
  refl : ∀ key, callbacks.keyEq key key = true
  symm : ∀ {first second}, callbacks.keyEq first second = true →
    callbacks.keyEq second first = true
  trans : ∀ {first second third}, callbacks.keyEq first second = true →
    callbacks.keyEq second third = true → callbacks.keyEq first third = true
  hashed : ∀ {first second}, callbacks.keyEq first second = true →
    callbacks.hashFunc first = callbacks.hashFunc second

theorem KeyLaws.of_strings {hash : List UInt8 → HashKey} (string : Key → List UInt8)
    (isHash : ∀ key, callbacks.hashFunc key = hash (string key))
    (isEq : ∀ first second, callbacks.keyEq first second = (string first == string second)) :
    KeyLaws callbacks where
  refl := fun key => by rw [isEq, beq_self_eq_true]
  symm := fun equal => by
    rw [isEq, beq_iff_eq] at equal ⊢
    exact equal.symm
  trans := fun first second => by
    rw [isEq, beq_iff_eq] at first second ⊢
    exact first.trans second
  hashed := fun equal => by
    rw [isEq, beq_iff_eq] at equal
    rw [isHash, isHash, equal]

/-- The stored keys are pairwise different and carry their own hash keys. -/
structure Keyed (callbacks : Callbacks Key) (slots : List (Slot Key Data)) :
    Prop where
  hashkey_eq : ∀ slot ∈ slots, slot.hashkey = callbacks.hashFunc slot.key
  distinct : slots.Pairwise fun first second =>
    callbacks.keyEq first.key second.key = false

def Absent (callbacks : Callbacks Key) (table : Table Key Data) (key : Key) :
    Prop :=
  ∀ slot ∈ allSlots table, callbacks.keyEq slot.key key = false

theorem KeyLaws.not_symm (laws : KeyLaws callbacks) {first second : Key}
    (differ : callbacks.keyEq first second = false) :
    callbacks.keyEq second first = false := by
  cases equal : callbacks.keyEq second first with
  | false => rfl
  | true =>
    rw [laws.symm equal] at differ
    cases differ

theorem Keyed.perm (laws : KeyLaws callbacks) {slots other : List (Slot Key Data)}
    (keyed : Keyed callbacks slots) (perm : other.Perm slots) : Keyed callbacks other where
  hashkey_eq := fun slot member => keyed.hashkey_eq slot (perm.mem_iff.mp member)
  distinct := (perm.pairwise_iff fun differ => laws.not_symm differ).mpr
    keyed.distinct

theorem Absent.perm {other : Table Key Data} (absent : Absent callbacks table key)
    (perm : (allSlots other).Perm (allSlots table)) :
    Absent callbacks other key :=
  fun slot member => absent slot (perm.mem_iff.mp member)

/-! Where `findSlot` looks and what its answer means for the whole table. -/

theorem Layout.findSlot_absent {home : Nat → Nat} {blockIdx : Nat} (layout : Layout home table)
    (laws : KeyLaws callbacks) (keyed : Keyed callbacks (allSlots table))
    (bound : blockIdx < table.nBucket) (covers : ∀ slot ∈ allSlots table,
      slot.hashkey = callbacks.hashFunc key →
        slot ∈ (table.bucket blockIdx).slots)
    (missed : findSlot callbacks (table.bucket blockIdx) key
      (callbacks.hashFunc key) = none) :
    Absent callbacks table key := by
  have bucket := layout.buckets blockIdx bound
  intro slot member
  cases equal : callbacks.keyEq slot.key key with
  | false => rfl
  | true =>
    have same : slot.hashkey = callbacks.hashFunc key := by
      rw [keyed.hashkey_eq slot member, laws.hashed equal]
    have differs := findSlot_none bucket.flag bucket.sorted missed slot
      (covers slot member same) same
    rw [equal] at differs
    cases differs

theorem Layout.findSlot_present {home : Nat → Nat} {blockIdx found : Nat}
    (layout : Layout home table) (bound : blockIdx < table.nBucket)
    (hit : findSlot callbacks (table.bucket blockIdx) key
      (callbacks.hashFunc key) = some found) :
    ∃ slot, (table.bucket blockIdx).slots[found]? = some slot ∧
      slot ∈ allSlots table ∧ callbacks.keyEq slot.key key = true ∧
      slot.deleted = false := by
  have bucket := layout.buckets blockIdx bound
  obtain ⟨slot, stored, equal⟩ := findSlot_some bucket.flag hit
  have member := List.mem_of_getElem? stored
  exact ⟨slot, stored, mem_allSlots.mpr ⟨blockIdx, bound, member⟩, equal,
    bucket.kept slot member⟩

theorem setBucket_self (table : Table Key Data) (blockIdx : Nat) :
    table.setBucket blockIdx (table.bucket blockIdx) = table := by
  simp [Table.setBucket]

theorem set_undeleted {slots : List (Slot Key Data)} {found : Nat}
    {slot : Slot Key Data} (stored : slots[found]? = some slot)
    (kept : slot.deleted = false) :
    slots.set found { slot with deleted := false } = slots := by
  obtain ⟨bound, rfl⟩ := List.getElem?_eq_some_iff.mp stored
  rw [← kept]
  exact List.set_getElem_self bound

/-! Every way `hash_add` can end or recurse. -/

structure Probe (callbacks : Callbacks Key) (table : Table Key Data) (key : Key)
    (blockIdx : Nat) (found : Option Nat) : Prop where
  directoryAt_eq : table.directoryAt
    (getPrefix (callbacks.hashFunc key) table.depth) = some blockIdx
  getBucket_eq : table.getBucket blockIdx = some (table.bucket blockIdx)
  findSlot_eq : findSlot callbacks (table.bucket blockIdx) key
    (callbacks.hashFunc key) = found

theorem Probe.located {blockIdx other : Nat} {found : Option Nat}
    (probe : Probe callbacks table key other found)
    (inDirectory : table.directoryAt (getPrefix (callbacks.hashFunc key) table.depth) =
      some blockIdx) : other = blockIdx :=
  Option.some.inj (probe.directoryAt_eq.symm.trans inDirectory)

def newSlot (callbacks : Callbacks Key) (key : Key) (data : Data) :
    Slot Key Data :=
  { key := key
    hashkey := callbacks.hashFunc key
    data := data
    deleted := false }

def storeAt (table : Table Key Data) (blockIdx position : Nat)
    (slot : Slot Key Data) : Table Key Data :=
  { table.setBucket blockIdx { table.bucket blockIdx with
      slots := (table.bucket blockIdx).slots.take position ++
        slot :: (table.bucket blockIdx).slots.drop position } with
    nSlot := table.nSlot + 1 }

/-- The table `partitionBucket` is called on. -/
def Widened (table : Table Key Data) (blockIdx : Nat) (widened : Table Key Data) :
    Prop :=
  (table.bucket blockIdx).depth = table.depth ∧
    doubleTable table = (widened, true) ∨
  (table.bucket blockIdx).depth < table.depth ∧ widened = table

inductive AddCase [DecidableEq Data] (callbacks : Callbacks Key) (fuel : Nat)
    (table : Table Key Data) (key : Key) (data : Data) :
    Table Key Data → AddResult Data → Prop where
  | noBucket {blockIdx}
      (beyond : table.getBucket blockIdx = none)
      (directory : table.directoryAt
        (getPrefix (callbacks.hashFunc key) table.depth) = some blockIdx) :
      AddCase callbacks fuel table key data table .fail
  | present {blockIdx found slot}
      (probe : Probe callbacks table key blockIdx (some found))
      (stored : (table.bucket blockIdx).slots[found]? = some slot)
      (same : slot.data = data) :
      AddCase callbacks fuel table key data
        (table.setBucket blockIdx { table.bucket blockIdx with
          slots := (table.bucket blockIdx).slots.set found
            { slot with deleted := false } }) .success
  | collision {blockIdx found slot}
      (probe : Probe callbacks table key blockIdx (some found))
      (stored : (table.bucket blockIdx).slots[found]? = some slot)
      (differs : slot.data ≠ data) :
      AddCase callbacks fuel table key data table (.collision slot.data)
  | undoubled {blockIdx doubled}
      (probe : Probe callbacks table key blockIdx none)
      (full : (table.bucket blockIdx).slots.length = hashSlotNum)
      (refused : doubleTable table = (doubled, false))
      (level : (table.bucket blockIdx).depth = table.depth) :
      AddCase callbacks fuel table key data doubled .overflow
  | unsplit {blockIdx widened parted}
      (probe : Probe callbacks table key blockIdx none)
      (full : (table.bucket blockIdx).slots.length = hashSlotNum)
      (wide : Widened table blockIdx widened)
      (refused : partitionBucket callbacks widened
        (getPrefix (callbacks.hashFunc key) table.depth) = some (parted, false)) :
      AddCase callbacks fuel table key data parted .overflow
  | split {blockIdx widened parted after reply}
      (probe : Probe callbacks table key blockIdx none)
      (full : (table.bucket blockIdx).slots.length = hashSlotNum)
      (wide : Widened table blockIdx widened)
      (parting : partitionBucket callbacks widened
        (getPrefix (callbacks.hashFunc key) table.depth) = some (parted, true))
      (again : hashAddFuel callbacks fuel parted key data = some (after, reply)) :
      AddCase callbacks fuel table key data after reply
  | tooDeep {blockIdx}
      (probe : Probe callbacks table key blockIdx none)
      (deep : table.depth < (table.bucket blockIdx).depth) :
      AddCase callbacks fuel table key data table .fail
  | tooMany {blockIdx}
      (probe : Probe callbacks table key blockIdx none)
      (many : hashSlotNum < (table.bucket blockIdx).slots.length) :
      AddCase callbacks fuel table key data table .overflow
  | insertSorted {blockIdx}
      (probe : Probe callbacks table key blockIdx none)
      (room : (table.bucket blockIdx).slots.length < hashSlotNum)
      (flag : (table.bucket blockIdx).sorted = .sorted) :
      AddCase callbacks fuel table key data
        (storeAt table blockIdx (insertPos (table.bucket blockIdx).slots
          (callbacks.hashFunc key)) (newSlot callbacks key data)) .success
  | insertUnsorted {blockIdx}
      (probe : Probe callbacks table key blockIdx none)
      (room : (table.bucket blockIdx).slots.length < hashSlotNum)
      (flag : (table.bucket blockIdx).sorted = .unsorted) :
      AddCase callbacks fuel table key data
        (storeAt table blockIdx (table.bucket blockIdx).slots.length
          (newSlot callbacks key data)) .success
  | sorting {blockIdx}
      (probe : Probe callbacks table key blockIdx none)
      (flag : (table.bucket blockIdx).sorted = .sorting) :
      AddCase callbacks fuel table key data table .fail

theorem hashAddFuel_cases [DecidableEq Data] {fuel : Nat} {after : Table Key Data} {data : Data}
    {reply : AddResult Data} (result : hashAddFuel callbacks (fuel + 1) table key data =
      some (after, reply)) :
    AddCase callbacks fuel table key data after reply := by
  simp only [hashAddFuel] at result
  split at result
  case h_1 => cases result
  case h_2 blockIdx inDirectory =>
    split at result
    case h_1 beyond =>
      cases result
      exact .noBucket beyond inDirectory
    case h_2 bucket inBlocks =>
      obtain ⟨-, rfl⟩ := getBucket_eq_some.mp inBlocks
      split at result
      case h_1 found hit =>
        have probe : Probe callbacks table key blockIdx (some found) :=
          ⟨inDirectory, inBlocks, hit⟩
        split at result
        case h_1 => cases result
        case h_2 slot stored =>
          split at result
          case isTrue same =>
            cases result
            exact .present probe stored same
          case isFalse differs =>
            cases result
            exact .collision probe stored differs
      case h_2 missed =>
        have probe : Probe callbacks table key blockIdx none :=
          ⟨inDirectory, inBlocks, missed⟩
        split at result
        case isTrue full =>
          split at result
          case isTrue level =>
            split at result
            case h_1 doubled refused =>
              cases result
              exact .undoubled probe full refused level
            case h_2 doubled grown =>
              have wide : Widened table blockIdx doubled :=
                .inl ⟨level, grown⟩
              split at result
              case h_1 => cases result
              case h_2 parted refused =>
                cases result
                exact .unsplit probe full wide refused
              case h_3 parted parting =>
                exact .split probe full wide parting result
          case isFalse uneven =>
            split at result
            case isTrue shallow =>
              have wide : Widened table blockIdx table :=
                .inr ⟨shallow, rfl⟩
              split at result
              case h_1 => cases result
              case h_2 parted refused =>
                cases result
                exact .unsplit probe full wide refused
              case h_3 parted parting =>
                exact .split probe full wide parting result
            case isFalse deep =>
              cases result
              exact .tooDeep probe (by omega)
        case isFalse notFull =>
          split at result
          case isTrue many =>
            cases result
            exact .tooMany probe many
          case isFalse few =>
            have room : (table.bucket blockIdx).slots.length < hashSlotNum := by
              omega
            split at result
            case h_1 flag =>
              cases result
              exact .insertSorted probe room flag
            case h_2 flag =>
              cases result
              exact .insertUnsorted probe room flag
            case h_3 flag =>
              cases result
              exact .sorting probe flag

/-! `hash_add` on a well-formed table. -/

theorem Layout.storeAt {home : Nat → Nat} (layout : Layout home table) {blockIdx : Nat}
    (slot : Slot Key Data) (bound : blockIdx < table.nBucket)
    (homed : slot.hashkey.value / 2 ^ (32 - (table.bucket blockIdx).depth) =
      home blockIdx) (room : (table.bucket blockIdx).slots.length < hashSlotNum)
    (kept : slot.deleted = false) :
    Layout home (storeAt table blockIdx
      (insertPos (table.bucket blockIdx).slots slot.hashkey) slot) := by
  have bucket := layout.buckets blockIdx bound
  have perm := insert_perm (table.bucket blockIdx).slots
    (insertPos (table.bucket blockIdx).slots slot.hashkey) slot
  have replaced : Layout home (table.setBucket blockIdx
      { table.bucket blockIdx with
        slots := (table.bucket blockIdx).slots.take
            (insertPos (table.bucket blockIdx).slots slot.hashkey) ++
          slot :: (table.bucket blockIdx).slots.drop
            (insertPos (table.bucket blockIdx).slots slot.hashkey) }) :=
    layout.setBucket {
    bucket with
    sorted := bucket.sorted.insert slot
    length_le := by
      simp only
      rw [perm.length_eq, List.length_cons]
      exact room
    prefixed := by
      intro other member
      rcases List.mem_cons.mp (perm.mem_iff.mp member) with rfl | inside
      · exact homed
      · exact bucket.prefixed other inside
    kept := by
      intro other member
      rcases List.mem_cons.mp (perm.mem_iff.mp member) with rfl | inside
      · exact kept
      · exact bucket.kept other inside }
  exact ⟨replaced.depth_le, replaced.flag, replaced.nBucket_le,
    replaced.directory_lt, replaced.buckets⟩

theorem storeAt_slots (table : Table Key Data) {blockIdx : Nat}
    (bound : blockIdx < table.nBucket) (position : Nat)
    (slot : Slot Key Data) :
    (allSlots (storeAt table blockIdx position slot)).Perm
      (slot :: allSlots table) := by
  obtain ⟨rest, before, after⟩ := setBucket_slots table bound
  refine (after _).trans ?_
  refine ((insert_perm _ position slot).append_right rest).trans ?_
  exact List.Perm.cons slot before.symm

structure Inserted (callbacks : Callbacks Key) (table : Table Key Data)
    (key : Key) (data : Data) (after : Table Key Data) : Prop where
  formed : WellFormed after
  slots : (allSlots after).Perm (newSlot callbacks key data :: allSlots table)
  nSlot_eq : after.nSlot = table.nSlot + 1

theorem Widened.keeps {widened : Table Key Data} {blockIdx bucketIdx : Nat}
    (formed : WellFormed table) (wide : Widened table blockIdx widened)
    (bound : bucketIdx < 2 ^ table.depth) :
    WellFormed widened ∧ allSlots widened = allSlots table ∧
      widened.nSlot = table.nSlot ∧ bucketIdx < 2 ^ widened.depth := by
  rcases wide with ⟨_, grown⟩ | ⟨_, rfl⟩
  · obtain ⟨home, layout⟩ := formed
    obtain ⟨doubled, sameBuckets, sameCount, sameSlots, deeper⟩ :=
      layout.doubleTable grown
    refine ⟨⟨home, doubled⟩, ?_, sameSlots, ?_⟩
    · simp only [allSlots, sameBuckets, sameCount]
    · rw [deeper, Nat.pow_succ]
      omega
  · exact ⟨formed, rfl, rfl, bound⟩

theorem hashAddFuel_spec [DecidableEq Data] (laws : KeyLaws callbacks) {fuel : Nat}
    {after : Table Key Data} {data : Data} {reply : AddResult Data} (formed : WellFormed table)
    (keyed : Keyed callbacks (allSlots table))
    (result : hashAddFuel callbacks fuel table key data = some (after, reply)) :
    (∃ slot ∈ allSlots table, callbacks.keyEq slot.key key = true ∧
      after = table ∧
      reply = if slot.data = data then .success else .collision slot.data) ∨
    Absent callbacks table key ∧
      (reply = .overflow ∨
        reply = .success ∧ Inserted callbacks table key data after) := by
  induction fuel generalizing table with
  | zero => cases result
  | succ fuel induction =>
    obtain ⟨home, layout⟩ := formed
    obtain ⟨blockIdx, bound, indexBound, inDirectory, inBlocks, homed, covers⟩ :=
      layout.located (callbacks.hashFunc key)
    have bucket := layout.buckets blockIdx bound
    have absent : Probe callbacks table key blockIdx none →
        Absent callbacks table key :=
      fun probe => layout.findSlot_absent laws keyed bound covers
        probe.findSlot_eq
    cases hashAddFuel_cases result with
    | noBucket beyond directory =>
      rw [Option.some.inj (directory.symm.trans inDirectory), inBlocks] at beyond
      cases beyond
    | present probe stored same =>
      obtain rfl := probe.located inDirectory
      obtain ⟨slot, at_found, member, equal, kept⟩ :=
        layout.findSlot_present bound probe.findSlot_eq
      obtain rfl := Option.some.inj (stored.symm.trans at_found)
      refine .inl ⟨_, member, equal, ?_, by rw [if_pos same]⟩
      rw [set_undeleted stored kept]
      exact setBucket_self table _
    | collision probe stored differs =>
      obtain rfl := probe.located inDirectory
      obtain ⟨slot, at_found, member, equal, kept⟩ :=
        layout.findSlot_present bound probe.findSlot_eq
      obtain rfl := Option.some.inj (stored.symm.trans at_found)
      exact .inl ⟨_, member, equal, rfl, by rw [if_neg differs]⟩
    | undoubled probe full refused =>
      obtain rfl := probe.located inDirectory
      exact .inr ⟨absent probe, .inl rfl⟩
    | unsplit probe full wide refused =>
      obtain rfl := probe.located inDirectory
      exact .inr ⟨absent probe, .inl rfl⟩
    | split probe full wide parting again =>
      obtain rfl := probe.located inDirectory
      have missing := absent probe
      obtain ⟨widenedFormed, sameSlots, sameCount, wideBound⟩ :=
        wide.keeps ⟨home, layout⟩ indexBound
      obtain ⟨partedFormed, perm, partedCount⟩ :=
        widenedFormed.partitionBucket wideBound parting
      rw [sameSlots] at perm
      rcases induction partedFormed (keyed.perm laws perm) again with
        ⟨slot, member, equal, _⟩ | ⟨_, overflow | ⟨success, inserted⟩⟩
      · have differs := missing.perm perm slot member
        rw [equal] at differs
        cases differs
      · exact .inr ⟨missing, .inl overflow⟩
      · refine .inr ⟨missing, .inr ⟨success, inserted.formed, ?_, ?_⟩⟩
        · exact inserted.slots.trans (perm.cons _)
        · rw [inserted.nSlot_eq, partedCount, sameCount]
    | tooDeep probe deep =>
      obtain rfl := probe.located inDirectory
      exact absurd bucket.depth_le (by omega)
    | tooMany probe many =>
      obtain rfl := probe.located inDirectory
      exact absurd bucket.length_le (by omega)
    | insertSorted probe room flag =>
      obtain rfl := probe.located inDirectory
      have stored := layout.storeAt (newSlot callbacks key data)
        bound homed room rfl
      exact .inr ⟨absent probe, .inr ⟨rfl, ⟨home, stored⟩,
        storeAt_slots table bound _ _, rfl⟩⟩
    | insertUnsorted probe room flag =>
      obtain rfl := probe.located inDirectory
      rw [bucket.flag] at flag
      cases flag
    | sorting probe flag =>
      obtain rfl := probe.located inDirectory
      rw [bucket.flag] at flag
      cases flag

theorem Keyed.unique (laws : KeyLaws callbacks) {slots : List (Slot Key Data)}
    (keyed : Keyed callbacks slots) {first second : Slot Key Data} (firstIn : first ∈ slots)
    (secondIn : second ∈ slots) (firstEq : callbacks.keyEq first.key key = true)
    (secondEq : callbacks.keyEq second.key key = true) : first = second := by
  by_contra differ
  have : Std.Symm fun first second : Slot Key Data =>
      callbacks.keyEq first.key second.key = false :=
    ⟨fun _ _ other => laws.not_symm other⟩
  have apart := keyed.distinct.forall firstIn secondIn differ
  rw [laws.trans firstEq (laws.symm secondEq)] at apart
  cases apart

theorem Layout.probe_present {home : Nat → Nat} {slot : Slot Key Data} (layout : Layout home table)
    (laws : KeyLaws callbacks) (keyed : Keyed callbacks (allSlots table))
    (member : slot ∈ allSlots table) (equal : callbacks.keyEq slot.key key = true) :
    ∃ blockIdx found, blockIdx < table.nBucket ∧
      Probe callbacks table key blockIdx (some found) ∧
      (table.bucket blockIdx).slots[found]? = some slot ∧
      slot.deleted = false := by
  obtain ⟨blockIdx, bound, _, inDirectory, inBlocks, _, covers⟩ :=
    layout.located (callbacks.hashFunc key)
  cases search : findSlot callbacks (table.bucket blockIdx) key
      (callbacks.hashFunc key) with
  | none =>
    have differs := layout.findSlot_absent laws keyed bound covers search
      slot member
    rw [equal] at differs
    cases differs
  | some found =>
    obtain ⟨other, stored, otherIn, otherEq, kept⟩ :=
      layout.findSlot_present bound search
    obtain rfl := keyed.unique laws otherIn member otherEq equal
    exact ⟨blockIdx, found, bound, ⟨inDirectory, inBlocks, search⟩, stored, kept⟩

theorem Layout.probe_absent {home : Nat → Nat} (layout : Layout home table)
    (absent : Absent callbacks table key) :
    ∃ blockIdx < table.nBucket, Probe callbacks table key blockIdx none := by
  obtain ⟨blockIdx, bound, _, inDirectory, inBlocks, _⟩ :=
    layout.located (callbacks.hashFunc key)
  refine ⟨blockIdx, bound, inDirectory, inBlocks, ?_⟩
  cases search : findSlot callbacks (table.bucket blockIdx) key
      (callbacks.hashFunc key) with
  | none => rfl
  | some found =>
    obtain ⟨slot, _, member, equal, _⟩ := layout.findSlot_present bound search
    rw [absent slot member] at equal
    cases equal

theorem hashAddFuel_present [DecidableEq Data] (laws : KeyLaws callbacks) {slot : Slot Key Data}
    (fuel : Nat) (data : Data) (formed : WellFormed table)
    (keyed : Keyed callbacks (allSlots table)) (member : slot ∈ allSlots table)
    (equal : callbacks.keyEq slot.key key = true) :
    hashAddFuel callbacks (fuel + 1) table key data =
      some (table, if slot.data = data then .success
        else .collision slot.data) := by
  obtain ⟨home, layout⟩ := formed
  obtain ⟨blockIdx, found, _, probe, stored, kept⟩ :=
    layout.probe_present laws keyed member equal
  simp only [hashAddFuel, probe.directoryAt_eq, probe.getBucket_eq,
    probe.findSlot_eq, stored]
  split
  · rw [set_undeleted stored kept, setBucket_self]
  · rfl

/-! `hash_search` and `hash_update`. -/

theorem hashSearch_present (laws : KeyLaws callbacks) {slot : Slot Key Data}
    (formed : WellFormed table) (keyed : Keyed callbacks (allSlots table))
    (member : slot ∈ allSlots table) (equal : callbacks.keyEq slot.key key = true) :
    hashSearch callbacks table key = some (some slot.data) := by
  obtain ⟨home, layout⟩ := formed
  obtain ⟨blockIdx, found, _, probe, stored, _⟩ :=
    layout.probe_present laws keyed member equal
  simp only [hashSearch, probe.directoryAt_eq, probe.getBucket_eq,
    probe.findSlot_eq, stored]

theorem hashSearch_absent (formed : WellFormed table) (absent : Absent callbacks table key) :
    hashSearch callbacks table key = some none := by
  obtain ⟨home, layout⟩ := formed
  obtain ⟨blockIdx, _, probe⟩ := layout.probe_absent absent
  simp only [hashSearch, probe.directoryAt_eq, probe.getBucket_eq,
    probe.findSlot_eq]

theorem hashUpdate_absent (data : Data) (formed : WellFormed table)
    (absent : Absent callbacks table key) :
    hashUpdate callbacks table key data = some (table, false) := by
  obtain ⟨home, layout⟩ := formed
  obtain ⟨blockIdx, _, probe⟩ := layout.probe_absent absent
  simp only [hashUpdate, probe.directoryAt_eq, probe.getBucket_eq,
    probe.findSlot_eq]

theorem set_perm {α : Type} {items : List α} {index : Nat} {item : α}
    (stored : items[index]? = some item) :
    ∃ rest, items.Perm (item :: rest) ∧
      ∀ replaced, (items.set index replaced).Perm (replaced :: rest) := by
  obtain ⟨bound, rfl⟩ := List.getElem?_eq_some_iff.mp stored
  refine ⟨items.take index ++ items.drop (index + 1), ?_, fun replaced => ?_⟩
  · conv_lhs => rw [← List.take_append_drop index items,
      List.drop_eq_getElem_cons bound]
    exact List.perm_middle
  · rw [List.set_eq_take_append_cons_drop, if_pos bound]
    exact List.perm_middle

theorem SlotsSorted.set {slots : List (Slot Key Data)} {index : Nat}
    {slot replaced : Slot Key Data} (sorted : SlotsSorted slots)
    (stored : slots[index]? = some slot)
    (same : replaced.hashkey = slot.hashkey) :
    SlotsSorted (slots.set index replaced) := by
  have keys : ∀ items : List (Slot Key Data), SlotsSorted items ↔
      (items.map Slot.hashkey).Pairwise fun first second =>
        first.value ≤ second.value := by
    intro items
    rw [SlotsSorted, List.pairwise_map]
  obtain ⟨bound, rfl⟩ := List.getElem?_eq_some_iff.mp stored
  rw [keys] at sorted ⊢
  rw [List.map_set, same]
  have mapBound : index < (slots.map Slot.hashkey).length := by
    rwa [List.length_map]
  have unchanged := List.set_getElem_self mapBound
  rw [List.getElem_map] at unchanged
  rw [unchanged]
  exact sorted

theorem hashUpdate_present (laws : KeyLaws callbacks) {slot : Slot Key Data} (data : Data)
    (formed : WellFormed table) (keyed : Keyed callbacks (allSlots table))
    (member : slot ∈ allSlots table) (equal : callbacks.keyEq slot.key key = true) :
    ∃ after rest, hashUpdate callbacks table key data = some (after, true) ∧
      WellFormed after ∧ (allSlots table).Perm (slot :: rest) ∧
      (allSlots after).Perm ({ slot with data := data } :: rest) ∧
      after.nSlot = table.nSlot := by
  obtain ⟨home, layout⟩ := formed
  obtain ⟨blockIdx, found, bound, probe, stored, kept⟩ :=
    layout.probe_present laws keyed member equal
  obtain ⟨others, before, after⟩ := setBucket_slots table bound
  obtain ⟨rest, whole, replaced⟩ := set_perm stored
  have bucket := layout.buckets blockIdx bound
  have inBucket := List.mem_of_getElem? stored
  refine ⟨table.setBucket blockIdx { table.bucket blockIdx with
      slots := (table.bucket blockIdx).slots.set found
        { slot with data := data } }, rest ++ others, ?_, ⟨home, ?_⟩, ?_, ?_, rfl⟩
  · simp only [hashUpdate, probe.directoryAt_eq, probe.getBucket_eq,
      probe.findSlot_eq, stored]
  · refine layout.setBucket { bucket with
      sorted := ?_
      length_le := by simpa using bucket.length_le
      prefixed := ?_
      kept := ?_ }
    · exact bucket.sorted.set stored rfl
    · intro other otherIn
      rcases List.mem_or_eq_of_mem_set otherIn with inside | rfl
      · exact bucket.prefixed other inside
      · exact bucket.prefixed slot inBucket
    · intro other otherIn
      rcases List.mem_or_eq_of_mem_set otherIn with inside | rfl
      · exact bucket.kept other inside
      · exact kept
  · exact before.trans (whole.append_right others)
  · exact (after _).trans ((replaced _).append_right others)

/-! Each recursive call of `hash_add` has one more bucket, so the bound on the
recursion is never met. -/

theorem partitionBucket_nBucket {parted : Table Key Data} {bucketIdx : Nat}
    (result : partitionBucket callbacks table bucketIdx = some (parted, true)) :
    parted.nBucket = table.nBucket + 1 ∧
      table.nBucket < hashMemBlockNum * hashBucketPerBlock := by
  obtain ⟨_, _, space, nMemBlock, rfl⟩ := partitionBucket_split result
  exact ⟨rfl, space⟩

theorem doubleTable_nBucket (table : Table Key Data) :
    (doubleTable table).1.nBucket = table.nBucket := by
  simp only [doubleTable]
  split <;> rfl

theorem hashAddFuel_stable [DecidableEq Data] {fuel : Nat} {data : Data}
    (enough : hashMemBlockNum * hashBucketPerBlock ≤ table.nBucket + fuel) :
    hashAddFuel callbacks (fuel + 2) table key data =
      hashAddFuel callbacks (fuel + 1) table key data := by
  induction fuel using Nat.strong_induction_on generalizing table with
  | h fuel induction =>
    have recursion : ∀ (widened : Table Key Data) bucketIdx parted,
        widened.nBucket = table.nBucket →
        partitionBucket callbacks widened bucketIdx = some (parted, true) →
        hashAddFuel callbacks (fuel + 1) parted key data =
          hashAddFuel callbacks fuel parted key data := by
      intro widened bucketIdx parted same parting
      obtain ⟨more, space⟩ := partitionBucket_nBucket parting
      cases fuel with
      | zero => omega
      | succ fuel => exact induction fuel (by omega) (by omega)
    rw [hashAddFuel, hashAddFuel]
    simp only
    repeat' split
    all_goals first
      | rfl
      | skip
    · rename_i doubled grown _ parted parting
      have same := congrArg (fun pair => pair.1.nBucket) grown
      exact recursion doubled _ parted
        (same.symm.trans (doubleTable_nBucket table)) parting
    · rename_i parted parting
      exact recursion table _ parted rfl parting

theorem hashAddFuel_eq_hashAdd [DecidableEq Data] (callbacks : Callbacks Key)
    (table : Table Key Data) (key : Key) (data : Data) {fuel : Nat}
    (enough : hashMaxBucket + 1 ≤ fuel) :
    hashAddFuel callbacks fuel table key data =
      hashAdd callbacks table key data := by
  induction fuel, enough using Nat.le_induction with
  | base => rfl
  | succ fuel enough induction =>
    obtain ⟨lower, rfl⟩ := Nat.exists_eq_add_of_le' enough
    rw [← induction]
    refine hashAddFuel_stable (Nat.le_trans ?_ (Nat.le_add_left _ _))
    exact Nat.le_trans (by decide : _ ≤ hashMaxBucket) (Nat.le_add_left _ _)

theorem hashOpen_formed {initDepth : Nat}
    (opened : hashOpen callbacks initDepth .sorted = some table) :
    WellFormed table ∧ allSlots table = [] ∧ table.nSlot = 0 := by
  unfold hashOpen at opened
  simp only at opened
  split at opened
  case isTrue => cases opened
  rename_i shallow
  split at opened
  case isTrue => cases opened
  rename_i mapped
  split at opened
  case isFalse => cases opened
  cases opened
  refine ⟨⟨id, by simpa using shallow, rfl, ?_, ?_, ?_⟩, ?_, rfl⟩
  · simp only [hashMemBlockNum, hashBucketPerBlock, hashMaxBucket,
      hashMaxDepth] at mapped ⊢
    omega
  · intro index bound
    simp only [if_pos bound]
    exact bound
  · intro blockIdx bound
    refine ⟨rfl, Nat.le_refl _, ?_, List.Pairwise.nil, Nat.zero_le _,
      by simp, by simp, bound⟩
    intro index indexBound
    simp only [if_pos indexBound, Nat.sub_self, Nat.pow_zero, Nat.div_one, id]
  · simp [allSlots]

end Wisebot.Hash
