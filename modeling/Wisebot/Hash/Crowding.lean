import Wisebot.Hash.Calls

namespace Wisebot.Hash

open Lib

/-! Keys that share their first `HASH_MAX_DEPTH` bits: when a bucket's worth of them is
stored, the next one is refused by the largest directory. -/

variable {Key Data : Type} {callbacks : Callbacks Key}

/-- The stored hash keys that no directory tells from that of `key`. -/
def crowd (callbacks : Callbacks Key) (table : Table Key Data) (key : Key) :
    List (Slot Key Data) :=
  (allSlots table).filter fun slot =>
    slot.hashkey.value / 2 ^ (32 - hashMaxDepth) =
      (callbacks.hashFunc key).value / 2 ^ (32 - hashMaxDepth)

/-- The depth of the bucket of `key`. -/
def keyDepth (callbacks : Callbacks Key) (table : Table Key Data) (key : Key) : Nat :=
  (table.bucket (table.directory (getPrefix (callbacks.hashFunc key) table.depth))).depth

theorem getPrefix_of_deeper {first second : HashKey} {depth : Nat} (bound : depth ≤ hashMaxDepth)
    (same : first.value / 2 ^ (32 - hashMaxDepth) = second.value / 2 ^ (32 - hashMaxDepth)) :
    getPrefix first depth = getPrefix second depth := by
  simp only [hashMaxDepth] at bound same
  have exponent : 32 - depth = 32 - 22 + (22 - depth) := by omega
  rw [getPrefix_eq _ (by omega), getPrefix_eq _ (by omega), exponent, Nat.pow_add,
    ← Nat.div_div_eq_div_mul, ← Nat.div_div_eq_div_mul, same]

theorem Layout.crowd_subset {home : Nat → Nat} {table : Table Key Data} (key : Key)
    (layout : Layout home table) :
    crowd callbacks table key ⊆
      (table.bucket (table.directory (getPrefix (callbacks.hashFunc key) table.depth))).slots := by
  intro slot member
  obtain ⟨stored, same⟩ := List.mem_filter.mp member
  obtain ⟨blockIdx, bound, inside⟩ := mem_allSlots.mp stored
  have index := getPrefix_of_deeper layout.depth_le (of_decide_eq_true same)
  rw [← index, layout.directory_of_mem bound inside]
  exact inside

theorem Keyed.crowd_nodup {table : Table Key Data} (laws : KeyLaws callbacks) (key : Key)
    (keyed : Keyed callbacks (allSlots table)) : (crowd callbacks table key).Nodup := by
  refine (keyed.distinct.imp ?_).filter _
  rintro first second differ rfl
  rw [laws.refl] at differ
  cases differ

theorem Layout.full_of_crowd {home : Nat → Nat} {table : Table Key Data} {key : Key}
    (layout : Layout home table) (laws : KeyLaws callbacks)
    (keyed : Keyed callbacks (allSlots table))
    (crowded : hashSlotNum ≤ (crowd callbacks table key).length) {blockIdx : Nat}
    (probe : Probe callbacks table key blockIdx none) (bound : blockIdx < table.nBucket) :
    (table.bucket blockIdx).slots.length = hashSlotNum := by
  obtain ⟨-, rfl⟩ := directoryAt_eq_some.mp probe.directoryAt_eq
  have within := ((keyed.crowd_nodup laws key).subperm (layout.crowd_subset key)).length_le
  exact Nat.le_antisymm (layout.buckets _ bound).length_le (crowded.trans within)

theorem crowd_perm {table other : Table Key Data} (key : Key)
    (perm : (allSlots other).Perm (allSlots table)) :
    (crowd callbacks other key).length = (crowd callbacks table key).length :=
  (perm.filter _).length_eq

theorem splitBucket_depthAt {table : Table Key Data} {srcIdx index : Nat}
    (bound : table.directory index < table.nBucket) (srcBound : srcIdx < table.nBucket) :
    let parted := splitBucket table srcIdx (table.bucket srcIdx)
    (parted.bucket (parted.directory index)).depth =
      if table.directory index = srcIdx then (table.bucket srcIdx).depth + 1
      else (table.bucket (table.directory index)).depth := by
  simp only [splitBucket]
  by_cases source : table.directory index = srcIdx
  · rw [if_pos source]
    split
    case isTrue =>
      rw [Function.update_of_ne (by omega), Function.update_self]
    case isFalse =>
      rw [source, Function.update_self]
  · rw [if_neg source, if_neg (fun both => source both.2.1), Function.update_of_ne source,
      Function.update_of_ne (by omega)]

theorem keyDepth_doubled {table doubled : Table Key Data} (key : Key)
    (grown : doubleTable table = (doubled, true)) :
    keyDepth callbacks doubled key = keyDepth callbacks table key := by
  obtain ⟨directory, buckets, _⟩ := doubleTable_keeps grown (callbacks.hashFunc key)
  rw [keyDepth, keyDepth, directory, buckets]

theorem keyDepth_split {table parted : Table Key Data} {bucketIdx : Nat} (key : Key)
    (formed : WellFormed table) (bound : bucketIdx < 2 ^ table.depth)
    (parting : partitionBucket callbacks table bucketIdx = some (parted, true)) :
    parted.depth = table.depth ∧
      keyDepth callbacks table key ≤ keyDepth callbacks parted key ∧
      (table.directory bucketIdx =
          table.directory (getPrefix (callbacks.hashFunc key) table.depth) →
        keyDepth callbacks parted key = keyDepth callbacks table key + 1) := by
  obtain ⟨home, layout⟩ := formed
  obtain ⟨_, _, _, nMemBlock, rfl⟩ := partitionBucket_split parting
  have depth : table.depth ≤ 22 := layout.depth_le
  have block := layout.directory_lt _
    (getPrefix_lt (callbacks.hashFunc key) (show table.depth ≤ 32 by omega))
  have depthAt := @splitBucket_depthAt _ _ { table with nMemBlock := nMemBlock } _
    (getPrefix (callbacks.hashFunc key) table.depth) block (layout.directory_lt bucketIdx bound)
  refine ⟨rfl, ?_, fun source => ?_⟩
  · refine Nat.le_trans ?_ (Nat.le_of_eq depthAt.symm)
    split
    case isTrue source =>
      rw [keyDepth, ← source]
      exact Nat.le_succ _
    case isFalse => exact Nat.le_refl _
  · refine depthAt.trans ?_
    rw [if_pos source.symm, keyDepth, source]

theorem exhausted_refused [DecidableEq Data] {table : Table Key Data} {key : Key}
    {blockIdx : Nat} (probe : Probe callbacks table key blockIdx none)
    (full : (table.bucket blockIdx).slots.length = hashSlotNum)
    (level : (table.bucket blockIdx).depth = table.depth) (deepest : table.depth = hashMaxDepth)
    (fuel : Nat) (data : Data) :
    ∃ after, hashAddFuel callbacks (fuel + 1) table key data = some (after, .overflow) := by
  have refused : doubleTable table = ({ table with depth := table.depth + 1 }, false) := by
    rw [doubleTable, if_pos (.inr (by omega))]
  refine ⟨{ table with depth := table.depth + 1 }, ?_⟩
  simp only [hashAddFuel, probe.directoryAt_eq, probe.getBucket_eq, probe.findSlot_eq,
    if_pos full, if_pos level, refused]

structure Crowded (callbacks : Callbacks Key) (table : Table Key Data) (key : Key)
    (blockIdx : Nat) : Prop where
  bound : blockIdx < table.nBucket
  probe : Probe callbacks table key blockIdx none
  full : (table.bucket blockIdx).slots.length = hashSlotNum
  depth_eq : keyDepth callbacks table key = (table.bucket blockIdx).depth
  depth_le : (table.bucket blockIdx).depth ≤ table.depth

theorem Layout.crowded {home : Nat → Nat} {table : Table Key Data} {key : Key}
    (layout : Layout home table) (laws : KeyLaws callbacks)
    (keyed : Keyed callbacks (allSlots table)) (absent : Absent callbacks table key)
    (crowded : hashSlotNum ≤ (crowd callbacks table key).length) :
    ∃ blockIdx, Crowded callbacks table key blockIdx := by
  obtain ⟨blockIdx, bound, probe⟩ := layout.probe_absent absent
  obtain ⟨-, directory⟩ := directoryAt_eq_some.mp probe.directoryAt_eq
  refine ⟨blockIdx, bound, probe, layout.full_of_crowd laws keyed crowded probe bound, ?_,
    (layout.buckets _ bound).depth_le⟩
  rw [keyDepth, directory]

/-- With a bucket's worth of its crowd stored, a key that is not stored is refused by a
directory of the largest size. -/
theorem crowded_refused [DecidableEq Data] (laws : KeyLaws callbacks) {key : Key}
    (allocates : ∀ dataIdx, callbacks.allocData dataIdx = true) {steps fuel : Nat}
    {table : Table Key Data} (spacious : Spacious hashMaxDepth table)
    (keyed : Keyed callbacks (allSlots table)) (absent : Absent callbacks table key)
    (crowded : hashSlotNum ≤ (crowd callbacks table key).length)
    (left : 2 * hashMaxDepth ≤ table.depth + keyDepth callbacks table key + steps)
    (few : table.nBucket + steps ≤ 2097152) (enough : steps < fuel) (data : Data) :
    RunsOut callbacks key table ∧
      ∃ after, hashAddFuel callbacks fuel table key data = some (after, .overflow) := by
  induction steps generalizing table fuel with
  | zero =>
    obtain ⟨home, layout⟩ := spacious.formed
    obtain ⟨blockIdx, bound, probe, full, depth_eq, depth_le⟩ :=
      layout.crowded laws keyed absent crowded
    have shallow := layout.depth_le
    obtain ⟨fuel, rfl⟩ := Nat.exists_eq_add_of_lt enough
    have level : (table.bucket blockIdx).depth = table.depth := by omega
    have deepest : table.depth = hashMaxDepth := by omega
    exact ⟨.exhausted probe full level deepest,
      exhausted_refused probe full level deepest (0 + fuel) data⟩
  | succ steps induction =>
    obtain ⟨home, layout⟩ := spacious.formed
    obtain ⟨blockIdx, bound, probe, full, depth_eq, depth_le⟩ :=
      layout.crowded laws keyed absent crowded
    have shallow := layout.depth_le
    obtain ⟨more, rfl⟩ := Nat.exists_eq_add_of_lt enough
    have index : getPrefix (callbacks.hashFunc key) table.depth < 2 ^ table.depth := by
      simp only [hashMaxDepth] at shallow
      exact getPrefix_lt _ (by omega)
    -- one split brings either the directory or the bucket a level further
    have onwards : ∀ widened, Widened table blockIdx widened →
        Spacious hashMaxDepth widened → allSlots widened = allSlots table →
        widened.nBucket = table.nBucket →
        (widened.bucket (widened.directory
          (getPrefix (callbacks.hashFunc key) table.depth))).depth < widened.depth →
        (∀ parted, partitionBucket callbacks widened
            (getPrefix (callbacks.hashFunc key) table.depth) = some (parted, true) →
          2 * hashMaxDepth ≤ parted.depth + keyDepth callbacks parted key + steps) →
        RunsOut callbacks key table ∧ ∃ after,
          hashAddFuel callbacks (steps + 1 + more + 1) table key data =
            some (after, .overflow) := by
      intro widened wide wideSpacious sameSlots sameCount room deeper
      obtain ⟨wideFormed, _, _, wideIndex⟩ := wide.keeps ⟨home, layout⟩ index
      obtain ⟨parted, parting, partedSpacious, oneMore⟩ :=
        wideSpacious.partitionBucket (by omega) allocates wideIndex room
      obtain ⟨_, perm, _⟩ := wideFormed.partitionBucket wideIndex parting
      rw [sameSlots] at perm
      have recurses : Recurses callbacks key parted table :=
        ⟨blockIdx, widened, probe, full, wide, parting⟩
      obtain ⟨out, after, refused⟩ := @induction (steps + 1 + more) parted partedSpacious
        (keyed.perm laws perm) (absent.perm perm) (by rwa [crowd_perm key perm])
        (deeper parted parting) (by omega) (by omega)
      exact ⟨.later recurses out, after, (hashAddFuel_recurses recurses _ data).trans refused⟩
    obtain ⟨-, directory⟩ := directoryAt_eq_some.mp probe.directoryAt_eq
    rcases Nat.lt_or_eq_of_le depth_le with below | level
    · refine onwards table (.inr ⟨below, rfl⟩) spacious rfl rfl (by rwa [directory]) ?_
      intro parted parting
      obtain ⟨sameDepth, _, ownDepth⟩ := keyDepth_split key ⟨home, layout⟩ index parting
      have deeper := ownDepth rfl
      omega
    · by_cases deepest : table.depth = hashMaxDepth
      · exact ⟨.exhausted probe full level deepest,
          exhausted_refused probe full level deepest (steps + 1 + more) data⟩
      · obtain ⟨doubled, grown, wideSpacious, sameBuckets, sameCount, sameDepth⟩ :=
          spacious.doubleTable (Nat.le_refl _) (by omega)
        obtain ⟨layoutDoubled, _⟩ := layout.doubleTable grown
        have wideIndex : getPrefix (callbacks.hashFunc key) table.depth <
            2 ^ doubled.depth := by
          rw [sameDepth, Nat.pow_succ]
          omega
        have block := layoutDoubled.directory_lt _ wideIndex
        rw [sameCount] at block
        have older := (layout.buckets _ block).depth_le
        refine onwards doubled (.inl ⟨level, grown⟩) wideSpacious
          (by simp only [allSlots, sameBuckets, sameCount]) sameCount
          (by rw [sameBuckets, sameDepth]; omega) ?_
        intro parted parting
        obtain ⟨partedDepth, notLess, _⟩ :=
          keyDepth_split key ⟨home, layoutDoubled⟩ wideIndex parting
        rw [keyDepth_doubled key grown] at notLess
        omega

theorem not_runsOut_of_few {table : Table Key Data} {key : Key} (formed : WellFormed table)
    (few : (allSlots table).length < hashSlotNum) : ¬ RunsOut callbacks key table := by
  have notFull : ∀ {blockIdx}, Probe callbacks table key blockIdx none →
      (table.bucket blockIdx).slots.length ≠ hashSlotNum := by
    intro blockIdx probe full
    obtain ⟨home, layout⟩ := formed
    obtain ⟨other, bound, _, inDirectory, _⟩ := layout.located (callbacks.hashFunc key)
    obtain rfl := Option.some.inj (inDirectory.symm.trans probe.directoryAt_eq)
    obtain ⟨rest, perm, _⟩ := setBucket_slots table bound
    have total := perm.length_eq
    rw [List.length_append] at total
    omega
  intro out
  cases out with
  | exhausted probe full => exact notFull probe full
  | later recurses =>
    obtain ⟨_, _, probe, full, _⟩ := recurses
    exact notFull probe full

def sameCallbacks : Callbacks Nat where
  hashFunc := fun _ _ => 255
  keyEq := fun first second => first == second
  allocData := fun _ => true

theorem sameCallbacks_laws : KeyLaws sameCallbacks where
  refl := fun key => beq_self_eq_true key
  symm := fun equal => by
    simp only [sameCallbacks, beq_iff_eq] at equal ⊢
    exact equal.symm
  trans := fun first second => by
    simp only [sameCallbacks, beq_iff_eq] at first second ⊢
    exact first.trans second
  hashed := fun _ => rfl

/-- The table after the keys below `count` were added to `start`. -/
structure Filled (start : Table Nat Nat) (count : Nat) (shared : Shared Nat Nat) : Prop where
  reached : Reach (callStep sameCallbacks) (Within sameCallbacks) ⟨start, []⟩ shared
  spacious : Spacious 0 shared.table
  keyed : Keyed sameCallbacks (allSlots shared.table)
  keys : ((allSlots shared.table).map Slot.key).Perm (List.range count)

theorem Filled.length_eq {start : Table Nat Nat} {count : Nat} {shared : Shared Nat Nat}
    (filled : Filled start count shared) : (allSlots shared.table).length = count := by
  have length := filled.keys.length_eq
  rwa [List.length_map, List.length_range] at length

theorem Filled.absent {start : Table Nat Nat} {count : Nat} {shared : Shared Nat Nat}
    (filled : Filled start count shared) : Absent sameCallbacks shared.table count := by
  intro slot member
  have below := filled.keys.mem_iff.mp (List.mem_map_of_mem member)
  exact beq_eq_false_iff_ne.mpr (Nat.ne_of_lt (List.mem_range.mp below))

theorem Filled.next {start : Table Nat Nat} {count : Nat} {shared : Shared Nat Nat}
    (filled : Filled start count shared) (room : count < hashSlotNum) :
    ∃ next, Filled start (count + 1) next := by
  obtain ⟨after, reply, added, spacious, accepted⟩ :=
    @hashAdd_accepts _ _ _ sameCallbacks 0 shared.table count 0 (by decide) (fun _ => rfl)
      filled.spacious (by
        intro bits
        refine Nat.lt_of_le_of_lt List.countP_le_length ?_
        rwa [filled.length_eq])
  have within : ¬ RunsOut sameCallbacks count shared.table :=
    not_runsOut_of_few filled.spacious.formed (by rwa [filled.length_eq])
  have stepped : callStep sameCallbacks shared (.write (.add count 0)) =
      some { shared with table := after } := by
    simp only [callStep, hashCall, hashStep, added, Option.bind_eq_bind, Option.bind_some,
      Option.map_some]
  rcases hashAddFuel_spec sameCallbacks_laws filled.spacious.formed filled.keyed added with
    ⟨slot, member, equal, _⟩ | ⟨absent, rfl | ⟨_, inserted⟩⟩
  · rw [filled.absent slot member] at equal
    cases equal
  · rcases accepted with success | ⟨_, collision⟩
    · cases success
    · cases collision
  · refine ⟨_, filled.reached.step (.write (.add count 0)) within stepped, spacious,
      (filled.keyed.cons sameCallbacks_laws absent 0).perm sameCallbacks_laws inserted.slots, ?_⟩
    rw [List.range_succ]
    refine ((inserted.slots.map Slot.key).trans ?_).trans
      (List.perm_append_singleton count (List.range count)).symm
    exact filled.keys.cons count

theorem Filled.exists {start : Table Nat Nat}
    (opened : hashOpen sameCallbacks 0 .sorted = some start) {count : Nat}
    (bound : count ≤ hashSlotNum) : ∃ shared, Filled start count shared := by
  induction count with
  | zero =>
    obtain ⟨_, empty, _⟩ := hashOpen_formed opened
    exact ⟨⟨start, []⟩, .start, hashOpen_spacious opened 0,
      by rw [empty]; exact ⟨by simp, .nil⟩, by rw [empty]; exact .refl _⟩
  | succ count induction =>
    obtain ⟨shared, filled⟩ := induction (by omega)
    exact filled.next bound

theorem Filled.refused {start : Table Nat Nat} {shared : Shared Nat Nat}
    (filled : Filled start hashSlotNum shared) :
    RunsOut sameCallbacks hashSlotNum shared.table ∧
      ∃ after, hashAdd sameCallbacks shared.table hashSlotNum 0 = some (after, .overflow) := by
  have spacious : Spacious hashMaxDepth shared.table :=
    { filled.spacious with depth_le := filled.spacious.depth_le.trans (Nat.zero_le _) }
  have crowded : crowd sameCallbacks shared.table hashSlotNum = allSlots shared.table := by
    refine List.filter_eq_self.mpr fun slot member => ?_
    rw [filled.keyed.hashkey_eq slot member]
    exact decide_eq_true rfl
  have few := filled.spacious.nBucket_le
  have steps : 2 * hashMaxDepth ≤
      shared.table.depth + keyDepth sameCallbacks shared.table hashSlotNum + 44 :=
    Nat.le_add_left 44 _
  exact crowded_refused sameCallbacks_laws (fun _ => rfl) spacious filled.keyed filled.absent
    (by rw [crowded, filled.length_eq]) steps (by omega) (by decide) 0

/-- After a refused add, every search answers as before and every index is in the directory
if and only if the refusal did not come from a full bucket in a directory of the largest
size, or no key has an index beyond the directory and no stored key another index than 0. -/
theorem hashAdd_overflow_usable [DecidableEq Data] (laws : KeyLaws callbacks) {initDepth : Nat}
    {flag : SortFlag} {start after : Table Key Data} {shared : Shared Key Data} {key : Key}
    {data : Data} (opened : hashOpen callbacks initDepth flag = some start)
    (reached : Reach (callStep callbacks) (Within callbacks) ⟨start, []⟩ shared)
    (refused : hashAdd callbacks shared.table key data = some (after, .overflow)) :
    Usable callbacks shared.table after ↔
      ¬ RunsOut callbacks key shared.table ∨ AllBelow callbacks shared.table := by
  rcases Reach.sound_or_unsplit laws opened reached with sound | unsplit
  · rw [← Usable.unflagged_iff, ← RunsOut.unflagged_iff, ← AllBelow.unflagged_iff]
    apply @hashAdd_usable_iff _ _ _ _ laws _ _ key data sound.formed sound.keyed
    rw [hashAdd, hashAddFuel_unflagged, show hashAddFuel callbacks (hashMaxBucket + 1)
      shared.table key data = some (after, .overflow) from refused]
    rfl
  · exact ⟨fun _ => .inl unsplit.not_runsOut, fun _ => (unsplit.hashAdd refused).2 rfl⟩

theorem hashAdd_overflow_usable_same_hash :
    ∃ (start after : Table Nat Nat) (shared : Shared Nat Nat),
      hashOpen sameCallbacks 0 .sorted = some start ∧
      Reach (callStep sameCallbacks) (Within sameCallbacks) ⟨start, []⟩ shared ∧
      hashAdd sameCallbacks shared.table 128 0 = some (after, .overflow) ∧
      (Usable sameCallbacks shared.table after ↔
        ¬ RunsOut sameCallbacks 128 shared.table ∨ AllBelow sameCallbacks shared.table) := by
  obtain ⟨start, opened⟩ : ∃ start : Table Nat Nat,
      hashOpen sameCallbacks 0 .sorted = some start := ⟨_, rfl⟩
  obtain ⟨shared, filled⟩ := Filled.exists opened (Nat.le_refl hashSlotNum)
  obtain ⟨_, after, refused⟩ := filled.refused
  exact ⟨start, after, shared, opened, filled.reached, refused,
    hashAdd_overflow_usable sameCallbacks_laws opened filled.reached refused⟩

/-- A table with 128 keys of one hash key is not usable after the add of one more. -/
theorem hashAdd_overflow_unusable :
    ∃ (start after : Table Nat Nat) (shared : Shared Nat Nat) (stored : Nat),
      hashOpen sameCallbacks 0 .sorted = some start ∧
      Reach (callStep sameCallbacks) (Within sameCallbacks) ⟨start, []⟩ shared ∧
      hashAdd sameCallbacks shared.table 128 0 = some (after, .overflow) ∧
      hashSearch sameCallbacks shared.table 0 = some (some stored) ∧
      hashSearch sameCallbacks after 0 = none ∧
      2 ^ hashMaxDepth ≤ getPrefix (sameCallbacks.hashFunc 0) after.depth := by
  obtain ⟨start, opened⟩ : ∃ start : Table Nat Nat,
      hashOpen sameCallbacks 0 .sorted = some start := ⟨_, rfl⟩
  obtain ⟨shared, filled⟩ := Filled.exists opened (Nat.le_refl hashSlotNum)
  obtain ⟨out, after, refused⟩ := filled.refused
  have formed := filled.spacious.formed
  have first : 0 ∈ (allSlots shared.table).map Slot.key :=
    filled.keys.mem_iff.mpr (List.mem_range.mpr (by decide))
  obtain ⟨slot, member, isFirst⟩ := List.mem_map.mp first
  rcases hashAddFuel_overflow sameCallbacks_laws formed filled.keyed refused with
    ⟨within, _⟩ | ⟨_, last, exhausted⟩
  · exact absurd out within
  · have depth : after.depth = 23 := by
      rw [exhausted.after_eq]
      exact congrArg Nat.succ exhausted.deepest
    have beyond : 2 ^ hashMaxDepth ≤ getPrefix (sameCallbacks.hashFunc 0) after.depth := by
      rw [depth]
      decide
    refine ⟨start, after, shared, slot.data, opened, filled.reached, refused, ?_, ?_, beyond⟩
    · exact hashSearch_present sameCallbacks_laws formed filled.keyed member
        (beq_iff_eq.mpr isFirst)
    · have outside : after.directoryAt (getPrefix (sameCallbacks.hashFunc 0) after.depth) =
          none := if_neg (Nat.not_lt.mpr beyond)
      simp only [hashSearch, outside]

end Wisebot.Hash
