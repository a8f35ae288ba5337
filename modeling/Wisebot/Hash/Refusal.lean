import Wisebot.Hash.Deletion
import Wisebot.Hash.Capacity

namespace Wisebot.Hash

open Lib

/-! What an add that `hash_add` refuses leaves behind: the table is as good as before,
unless the refusal came from a directory of the largest size. -/

variable {Key Data : Type}

/-- The call comes to a table of depth `HASH_MAX_DEPTH` in which the bucket of the key is
full and has that depth. -/
inductive RunsOut (callbacks : Callbacks Key) (key : Key) : Table Key Data → Prop
  | exhausted {table blockIdx}
      (probe : Probe callbacks table key blockIdx none)
      (full : (table.bucket blockIdx).slots.length = hashSlotNum)
      (level : (table.bucket blockIdx).depth = table.depth)
      (deepest : table.depth = hashMaxDepth) : RunsOut callbacks key table
  | later {parted table}
      (recurses : Recurses callbacks key parted table)
      (again : RunsOut callbacks key parted) : RunsOut callbacks key table

/-- `hash_search` answers as before, and the index of every key is in the directory. -/
structure Usable (callbacks : Callbacks Key) (before after : Table Key Data) : Prop where
  search : ∀ key, hashSearch callbacks after key = hashSearch callbacks before key
  indices : ∀ key, getPrefix (callbacks.hashFunc key) after.depth < 2 ^ hashMaxDepth

theorem Widened.unique {table widened other : Table Key Data} {blockIdx : Nat}
    (wide : Widened table blockIdx widened) (wideOther : Widened table blockIdx other) :
    widened = other := by
  rcases wide with ⟨level, grown⟩ | ⟨below, rfl⟩
  · rcases wideOther with ⟨_, grownOther⟩ | ⟨below, _⟩
    · exact congrArg Prod.fst (grown.symm.trans grownOther)
    · omega
  · rcases wideOther with ⟨level, _⟩ | ⟨_, rfl⟩
    · omega
    · rfl

theorem Probe.unique {callbacks : Callbacks Key} {table : Table Key Data} {key : Key}
    {blockIdx other : Nat} {found foundOther : Option Nat}
    (probe : Probe callbacks table key blockIdx found)
    (probeOther : Probe callbacks table key other foundOther) : blockIdx = other :=
  Option.some.inj (probe.directoryAt_eq.symm.trans probeOther.directoryAt_eq)

theorem Recurses.unique {callbacks : Callbacks Key} {table parted other : Table Key Data}
    {key : Key} (recurses : Recurses callbacks key parted table)
    (recursesOther : Recurses callbacks key other table) : parted = other := by
  obtain ⟨blockIdx, widened, probe, _, wide, parting⟩ := recurses
  obtain ⟨_, widenedOther, probeOther, _, wideOther, partingOther⟩ := recursesOther
  obtain rfl := probe.unique probeOther
  obtain rfl := wide.unique wideOther
  have same := Option.some.inj (parting.symm.trans partingOther)
  exact congrArg Prod.fst same

theorem doubleTable_refused {table doubled : Table Key Data}
    (refused : doubleTable table = (doubled, false)) :
    hashMaxDepth ≤ table.depth ∧ doubled = { table with depth := table.depth + 1 } := by
  rw [doubleTable] at refused
  by_cases deep : 4 * 8 < table.depth + 1 ∨ hashMaxDepth < table.depth + 1
  · rw [if_pos deep] at refused
    cases refused
    refine ⟨?_, rfl⟩
    simp only [hashMaxDepth] at deep ⊢
    omega
  · rw [if_neg deep] at refused
    cases refused

theorem doubleTable_grown {table doubled : Table Key Data}
    (grown : doubleTable table = (doubled, true)) : table.depth < hashMaxDepth := by
  rw [doubleTable] at grown
  by_cases deep : 4 * 8 < table.depth + 1 ∨ hashMaxDepth < table.depth + 1
  · rw [if_pos deep] at grown
    cases grown
  · omega

theorem Recurses.runsOut_iff {callbacks : Callbacks Key} {table parted : Table Key Data}
    {key : Key} (recurses : Recurses callbacks key parted table) :
    RunsOut callbacks key table ↔ RunsOut callbacks key parted := by
  refine ⟨fun out => ?_, .later recurses⟩
  cases out with
  | exhausted probe full level deepest =>
    obtain ⟨_, _, probeOther, _, wide, _⟩ := recurses
    obtain rfl := probe.unique probeOther
    rcases wide with ⟨_, grown⟩ | ⟨below, _⟩
    · have shallow := doubleTable_grown grown
      omega
    · omega
  | later recursesOther again => exact recurses.unique recursesOther ▸ again

theorem not_runsOut_of_unsplit {callbacks : Callbacks Key} {table widened parted : Table Key Data}
    {key : Key} {blockIdx : Nat} (probe : Probe callbacks table key blockIdx none)
    (wide : Widened table blockIdx widened)
    (refused : partitionBucket callbacks widened
      (getPrefix (callbacks.hashFunc key) table.depth) = some (parted, false)) :
    ¬ RunsOut callbacks key table := by
  intro out
  cases out with
  | exhausted probeOther full level deepest =>
    obtain rfl := probe.unique probeOther
    rcases wide with ⟨_, grown⟩ | ⟨below, _⟩
    · have shallow := doubleTable_grown grown
      omega
    · omega
  | later recurses again =>
    obtain ⟨_, _, probeOther, _, wideOther, parting⟩ := recurses
    obtain rfl := probe.unique probeOther
    obtain rfl := wide.unique wideOther
    rw [parting] at refused
    cases refused

/-- The refusal of the largest directory, as the call comes to it. -/
structure Exhausted (callbacks : Callbacks Key) (table : Table Key Data) (key : Key)
    (last after : Table Key Data) : Prop where
  formed : WellFormed last
  slots : (allSlots last).Perm (allSlots table)
  full : ∃ blockIdx, Probe callbacks last key blockIdx none ∧
    (last.bucket blockIdx).slots.length = hashSlotNum ∧
    (last.bucket blockIdx).depth = last.depth
  deepest : last.depth = hashMaxDepth
  after_eq : after = { last with depth := last.depth + 1 }

theorem hashAddFuel_overflow [DecidableEq Data] {callbacks : Callbacks Key}
    (laws : KeyLaws callbacks) {fuel : Nat} {table after : Table Key Data} {key : Key}
    {data : Data} (formed : WellFormed table) (keyed : Keyed callbacks (allSlots table))
    (result : hashAddFuel callbacks fuel table key data = some (after, .overflow)) :
    ¬ RunsOut callbacks key table ∧ WellFormed after ∧
      (allSlots after).Perm (allSlots table) ∧ after.nSlot = table.nSlot ∨
    RunsOut callbacks key table ∧ ∃ last, Exhausted callbacks table key last after := by
  induction fuel generalizing table with
  | zero => cases result
  | succ fuel induction =>
    obtain ⟨home, layout⟩ := formed
    obtain ⟨blockIdx, bound, indexBound, inDirectory, _⟩ :=
      layout.located (callbacks.hashFunc key)
    have bucket := layout.buckets blockIdx bound
    cases hashAddFuel_cases result with
    | undoubled probe full refused level =>
      obtain rfl := probe.located inDirectory
      obtain ⟨deep, rfl⟩ := doubleTable_refused refused
      have deepest : table.depth = hashMaxDepth := Nat.le_antisymm layout.depth_le deep
      exact .inr ⟨.exhausted probe full level deepest, table,
        ⟨home, layout⟩, .refl _, ⟨_, probe, full, level⟩, deepest, rfl⟩
    | unsplit probe full wide refused =>
      obtain rfl := probe.located inDirectory
      obtain ⟨widenedFormed, sameSlots, sameCount, _⟩ :=
        wide.keeps ⟨home, layout⟩ indexBound
      obtain ⟨nMemBlock, rfl⟩ := partitionBucket_refused refused
      refine .inl ⟨not_runsOut_of_unsplit probe wide refused, ?_, .of_eq sameSlots, sameCount⟩
      obtain ⟨homeWide, layoutWide⟩ := widenedFormed
      exact ⟨homeWide, layoutWide.depth_le, layoutWide.flag, layoutWide.nBucket_le,
        layoutWide.directory_lt, layoutWide.buckets⟩
    | split probe full wide parting again =>
      obtain rfl := probe.located inDirectory
      obtain ⟨widenedFormed, sameSlots, sameCount, wideBound⟩ :=
        wide.keeps ⟨home, layout⟩ indexBound
      obtain ⟨partedFormed, perm, partedCount⟩ :=
        widenedFormed.partitionBucket wideBound parting
      rw [sameSlots] at perm
      have recurses : Recurses callbacks key _ table := ⟨_, _, probe, full, wide, parting⟩
      rcases induction partedFormed (keyed.perm laws perm) again with
        ⟨within, afterFormed, slots, count⟩ | ⟨out, last, exhausted⟩
      · exact .inl ⟨fun out => within (recurses.runsOut_iff.mp out), afterFormed,
          slots.trans perm, count.trans (partedCount.trans sameCount)⟩
      · exact .inr ⟨.later recurses out, last,
          { exhausted with slots := exhausted.slots.trans perm }⟩
    | tooMany probe many =>
      obtain rfl := probe.located inDirectory
      exact absurd bucket.length_le (by omega)

theorem absent_or_stored (callbacks : Callbacks Key) (table : Table Key Data) (key : Key) :
    Absent callbacks table key ∨
      ∃ slot ∈ allSlots table, callbacks.keyEq slot.key key = true := by
  by_cases stored : ∃ slot ∈ allSlots table, callbacks.keyEq slot.key key = true
  · exact .inr stored
  · refine .inl fun slot member => ?_
    cases equal : callbacks.keyEq slot.key key with
    | false => rfl
    | true => exact absurd ⟨slot, member, equal⟩ stored

theorem hashSearch_perm {callbacks : Callbacks Key} (laws : KeyLaws callbacks)
    {table other : Table Key Data} (formed : WellFormed table)
    (keyed : Keyed callbacks (allSlots table)) (otherFormed : WellFormed other)
    (perm : (allSlots other).Perm (allSlots table)) (key : Key) :
    hashSearch callbacks other key = hashSearch callbacks table key := by
  rcases absent_or_stored callbacks table key with absent | ⟨slot, member, equal⟩
  · rw [hashSearch_absent formed absent, hashSearch_absent otherFormed (absent.perm perm)]
  · rw [hashSearch_present laws formed keyed member equal,
      hashSearch_present laws otherFormed (keyed.perm laws perm) (perm.mem_iff.mpr member) equal]

theorem WellFormed.getPrefix_lt {table : Table Key Data} (formed : WellFormed table)
    (hashkey : HashKey) : getPrefix hashkey table.depth < 2 ^ hashMaxDepth := by
  obtain ⟨home, layout⟩ := formed
  obtain ⟨_, _, indexBound, _⟩ := layout.located hashkey
  exact indexBound.trans_le (Nat.pow_le_pow_right (by decide) layout.depth_le)

theorem Usable.of_perm {callbacks : Callbacks Key} (laws : KeyLaws callbacks)
    {table after : Table Key Data} (formed : WellFormed table)
    (keyed : Keyed callbacks (allSlots table)) (afterFormed : WellFormed after)
    (perm : (allSlots after).Perm (allSlots table)) : Usable callbacks table after where
  search := hashSearch_perm laws formed keyed afterFormed perm
  indices := fun key => afterFormed.getPrefix_lt (callbacks.hashFunc key)

theorem Layout.lookup {home : Nat → Nat} {table : Table Key Data} {index : Nat}
    (layout : Layout home table) (bound : index < 2 ^ table.depth) :
    table.directoryAt index = some (table.directory index) ∧
      table.getBucket (table.directory index) =
        some (table.bucket (table.directory index)) := by
  have inside := layout.directory_lt index bound
  exact ⟨directoryAt_eq_some.mpr
      ⟨bound.trans_le (Nat.pow_le_pow_right (by decide) layout.depth_le), rfl⟩,
    getBucket_eq_some.mpr ⟨inside.trans_le layout.nBucket_le, rfl⟩⟩

theorem Layout.directory_of_mem {home : Nat → Nat} {table : Table Key Data}
    {slot : Slot Key Data} {blockIdx : Nat} (layout : Layout home table)
    (bound : blockIdx < table.nBucket) (member : slot ∈ (table.bucket blockIdx).slots) :
    table.directory (getPrefix slot.hashkey table.depth) = blockIdx := by
  have depthBound : table.depth ≤ 22 := layout.depth_le
  have bucket := layout.buckets blockIdx bound
  have level := bucket.depth_le
  obtain ⟨_, _, indexBound, _⟩ := layout.located slot.hashkey
  have exponent : 32 - (table.bucket blockIdx).depth =
      32 - table.depth + (table.depth - (table.bucket blockIdx).depth) := by omega
  rw [bucket.owner _ indexBound, getPrefix_eq _ (by omega), ← bucket.prefixed slot member,
    exponent, Nat.pow_add, Nat.div_div_eq_div_mul]

theorem Layout.value_lt_of_deeper {home : Nat → Nat} {last : Table Key Data}
    {callbacks : Callbacks Key} {slot : Slot Key Data} (layout : Layout home last)
    (laws : KeyLaws callbacks) (keyed : Keyed callbacks (allSlots last))
    (deepest : last.depth = hashMaxDepth) (member : slot ∈ allSlots last)
    (small : (callbacks.hashFunc slot.key).value < 2 ^ 31)
    (found : hashSearch callbacks { last with depth := last.depth + 1 } slot.key =
      some (some slot.data)) :
    ∃ blockIdx < last.nBucket, slot ∈ (last.bucket blockIdx).slots ∧ home blockIdx = 0 ∧
      slot.hashkey.value < 2 ^ (31 - (last.bucket blockIdx).depth) := by
  have depth : last.depth = 22 := deepest
  have hashed := keyed.hashkey_eq slot member
  generalize index_eq : (callbacks.hashFunc slot.key).value / 2 ^ 9 = index
  have bound : index < 2 ^ last.depth := by
    rw [← index_eq, depth]
    omega
  have deeper : getPrefix (callbacks.hashFunc slot.key) (last.depth + 1) = index := by
    rw [getPrefix_eq _ (by omega), depth, ← index_eq]
  obtain ⟨inDirectory, inBlocks⟩ := layout.lookup bound
  have block := layout.directory_lt index bound
  have bucket := layout.buckets _ block
  have level := bucket.depth_le
  have stored : slot ∈ (last.bucket (last.directory index)).slots := by
    simp only [hashSearch, deeper] at found
    rw [show Table.directoryAt { last with depth := last.depth + 1 } index =
      some (last.directory index) from inDirectory] at found
    simp only at found
    rw [show Table.getBucket { last with depth := last.depth + 1 } (last.directory index) =
      some (last.bucket (last.directory index)) from inBlocks] at found
    simp only at found
    split at found
    case h_1 => cases found
    case h_2 position hit =>
      obtain ⟨other, at_position, otherIn, equal, _⟩ := layout.findSlot_present block hit
      rw [← keyed.unique laws otherIn member equal (laws.refl _)]
      exact List.mem_of_getElem? at_position
  have owned := (bucket.owner index bound).mp rfl
  have prefixed := bucket.prefixed slot stored
  have half : slot.hashkey.value / 2 ^ (31 - (last.bucket (last.directory index)).depth) =
      home (last.directory index) := by
    have exponent : 31 - (last.bucket (last.directory index)).depth =
        9 + (last.depth - (last.bucket (last.directory index)).depth) := by omega
    rw [← owned, hashed, exponent, Nat.pow_add, ← Nat.div_div_eq_div_mul, index_eq]
  have halved : slot.hashkey.value / 2 ^ (31 - (last.bucket (last.directory index)).depth) / 2 =
      home (last.directory index) := by
    have exponent : 32 - (last.bucket (last.directory index)).depth =
        31 - (last.bucket (last.directory index)).depth + 1 := by omega
    rw [← prefixed, exponent, Nat.pow_succ, Nat.div_div_eq_div_mul]
  have zero : home (last.directory index) = 0 := by omega
  refine ⟨_, block, stored, zero, ?_⟩
  rw [zero] at half
  exact (Nat.div_eq_zero_iff_lt (Nat.two_pow_pos _)).mp half

/-- Every key has its index in the directory one level deeper, and every stored hash key
has index 0 there. -/
structure AllBelow (callbacks : Callbacks Key) (table : Table Key Data) : Prop where
  keys : ∀ key, (callbacks.hashFunc key).value < 2 ^ 31
  slots : ∀ slot ∈ allSlots table, slot.hashkey.value < 2 ^ 9

theorem Exhausted.allBelow {callbacks : Callbacks Key} {table last after : Table Key Data}
    {key : Key} (exhausted : Exhausted callbacks table key last after)
    (laws : KeyLaws callbacks) (keyed : Keyed callbacks (allSlots last))
    (usable : Usable callbacks last after) : AllBelow callbacks last := by
  obtain ⟨home, layout⟩ := exhausted.formed
  have deepest := exhausted.deepest
  have depth : last.depth = 22 := deepest
  have keys : ∀ key, (callbacks.hashFunc key).value < 2 ^ 31 := by
    intro key
    have index := usable.indices key
    rw [exhausted.after_eq, getPrefix_eq _ (by simp only; omega)] at index
    simp only [depth, hashMaxDepth] at index
    omega
  have deeper : ∀ slot ∈ allSlots last,
      ∃ blockIdx < last.nBucket, slot ∈ (last.bucket blockIdx).slots ∧ home blockIdx = 0 ∧
        slot.hashkey.value < 2 ^ (31 - (last.bucket blockIdx).depth) := by
    intro slot member
    refine layout.value_lt_of_deeper laws keyed deepest member (keys slot.key) ?_
    rw [← exhausted.after_eq, usable.search]
    exact hashSearch_present laws exhausted.formed keyed member (laws.refl _)
  have first : ∀ blockIdx < last.nBucket, home blockIdx = 0 → last.directory 0 = blockIdx := by
    intro blockIdx bound zero
    rw [(layout.buckets blockIdx bound).owner 0 (Nat.two_pow_pos _), zero, Nat.zero_div]
  obtain ⟨fullIdx, probe, full, level⟩ := exhausted.full
  obtain ⟨keyIdx, bound, _, inDirectory, _⟩ := layout.located (callbacks.hashFunc key)
  obtain rfl : keyIdx = fullIdx :=
    Option.some.inj (inDirectory.symm.trans probe.directoryAt_eq)
  -- any slot of the full bucket puts that bucket at index 0, and with it all others
  obtain ⟨slot, inFull⟩ := List.exists_mem_of_length_pos
    (show 0 < (last.bucket keyIdx).slots.length by rw [full]; decide)
  obtain ⟨blockIdx, blockBound, inBlock, zero, _⟩ :=
    deeper slot (mem_allSlots.mpr ⟨keyIdx, bound, inFull⟩)
  obtain rfl : blockIdx = keyIdx := by
    rw [← layout.directory_of_mem blockBound inBlock, layout.directory_of_mem bound inFull]
  refine ⟨keys, fun other member => ?_⟩
  obtain ⟨otherIdx, otherBound, _, otherZero, small⟩ := deeper other member
  obtain rfl : otherIdx = blockIdx := by
    rw [← first otherIdx otherBound otherZero, first blockIdx bound zero]
  have exponent : 31 - (last.bucket otherIdx).depth = 9 := by omega
  rw [exponent] at small
  exact small

theorem Exhausted.usable {callbacks : Callbacks Key} {table last after : Table Key Data}
    {key : Key} (exhausted : Exhausted callbacks table key last after)
    (laws : KeyLaws callbacks) (keyed : Keyed callbacks (allSlots last))
    (below : AllBelow callbacks last) : Usable callbacks last after := by
  have formed := exhausted.formed
  obtain ⟨home, layout⟩ := exhausted.formed
  have depth : last.depth = 22 := exhausted.deepest
  have deeper : ∀ key, getPrefix (callbacks.hashFunc key) after.depth =
      (callbacks.hashFunc key).value / 2 ^ 9 := by
    intro key
    rw [exhausted.after_eq, getPrefix_eq _ (by simp only; omega)]
    simp only [depth]
  have bounds : ∀ key, (callbacks.hashFunc key).value / 2 ^ 9 < 2 ^ last.depth := by
    intro key
    have small := below.keys key
    rw [depth]
    omega
  refine ⟨fun other => ?_, fun other => ?_⟩
  · rcases absent_or_stored callbacks last other with absent | ⟨slot, member, equal⟩
    · rw [hashSearch_absent formed absent]
      obtain ⟨inDirectory, inBlocks⟩ := layout.lookup (bounds other)
      have block := layout.directory_lt _ (bounds other)
      have missed : findSlot callbacks (last.bucket (last.directory
          ((callbacks.hashFunc other).value / 2 ^ 9))) other (callbacks.hashFunc other) =
          none := by
        cases search : findSlot callbacks (last.bucket (last.directory
            ((callbacks.hashFunc other).value / 2 ^ 9))) other (callbacks.hashFunc other) with
        | none => rfl
        | some found =>
          obtain ⟨slot, _, member, equal, _⟩ := layout.findSlot_present block search
          rw [absent slot member] at equal
          cases equal
      simp only [hashSearch, deeper]
      rw [exhausted.after_eq, show Table.directoryAt { last with depth := last.depth + 1 } _ =
        some _ from inDirectory]
      simp only
      rw [show Table.getBucket { last with depth := last.depth + 1 } _ = some _ from inBlocks]
      simp only [missed]
    · have small := below.slots slot member
      rw [keyed.hashkey_eq slot member, laws.hashed equal] at small
      have same : getPrefix (callbacks.hashFunc other) after.depth =
          getPrefix (callbacks.hashFunc other) last.depth := by
        rw [deeper, getPrefix_eq _ (by omega), depth]
        omega
      simp only [hashSearch, same]
      rw [exhausted.after_eq]
      rfl
  · rw [deeper, ← exhausted.deepest]
    exact bounds other

theorem hashAdd_usable_iff [DecidableEq Data] {callbacks : Callbacks Key}
    (laws : KeyLaws callbacks) {table after : Table Key Data} {key : Key} {data : Data}
    (formed : WellFormed table) (keyed : Keyed callbacks (allSlots table))
    (refused : hashAdd callbacks table key data = some (after, .overflow)) :
    Usable callbacks table after ↔
      ¬ RunsOut callbacks key table ∨ AllBelow callbacks table := by
  rcases hashAddFuel_overflow laws formed keyed refused with
    ⟨within, afterFormed, perm, _⟩ | ⟨out, last, exhausted⟩
  · exact ⟨fun _ => .inl within, fun _ => .of_perm laws formed keyed afterFormed perm⟩
  · have perm := exhausted.slots
    have lastKeyed := keyed.perm laws perm
    have same := hashSearch_perm laws formed keyed exhausted.formed perm
    constructor
    · intro usable
      have lastUsable : Usable callbacks last after :=
        ⟨fun other => (usable.search other).trans (same other).symm, usable.indices⟩
      have below := exhausted.allBelow laws lastKeyed lastUsable
      exact .inr ⟨below.keys, fun slot member => below.slots slot (perm.mem_iff.mpr member)⟩
    · rintro (within | below)
      · exact absurd out within
      · have lastUsable := exhausted.usable laws lastKeyed
          ⟨below.keys, fun slot member => below.slots slot (perm.mem_iff.mp member)⟩
        exact ⟨fun other => (lastUsable.search other).trans (same other), lastUsable.indices⟩

theorem Probe.unflagged_iff {callbacks : Callbacks Key} {table : Table Key Data} {key : Key}
    {blockIdx : Nat} {found : Option Nat} :
    Probe callbacks table.unflagged key blockIdx found ↔
      Probe callbacks table key blockIdx found := by
  have slot : findSlot callbacks (table.unflagged.bucket blockIdx) key
      (callbacks.hashFunc key) =
      findSlot callbacks (table.bucket blockIdx) key (callbacks.hashFunc key) :=
    findSlot_unflagged callbacks (table.bucket blockIdx) key (callbacks.hashFunc key)
  constructor
  · rintro ⟨inDirectory, inBlocks, search⟩
    refine ⟨inDirectory, ?_, slot ▸ search⟩
    obtain ⟨inside, _⟩ := getBucket_eq_some.mp inBlocks
    exact getBucket_eq_some.mpr ⟨inside, rfl⟩
  · rintro ⟨inDirectory, inBlocks, search⟩
    refine ⟨inDirectory, ?_, slot.trans search⟩
    obtain ⟨inside, _⟩ := getBucket_eq_some.mp inBlocks
    exact getBucket_eq_some.mpr ⟨inside, rfl⟩

theorem Widened.unflagged_iff {table wide : Table Key Data} {blockIdx : Nat} :
    Widened table.unflagged blockIdx wide ↔
      ∃ widened, Widened table blockIdx widened ∧ wide = widened.unflagged := by
  constructor
  · rintro (⟨level, grown⟩ | ⟨below, rfl⟩)
    · rw [doubleTable_unflagged] at grown
      obtain ⟨same, done⟩ := Prod.mk.inj grown
      exact ⟨_, .inl ⟨level, Prod.ext rfl done⟩, same.symm⟩
    · exact ⟨table, .inr ⟨below, rfl⟩, rfl⟩
  · rintro ⟨widened, ⟨level, grown⟩ | ⟨below, rfl⟩, rfl⟩
    · exact .inl ⟨level, by rw [doubleTable_unflagged, grown]⟩
    · exact .inr ⟨below, rfl⟩

theorem Recurses.unflagged_iff {callbacks : Callbacks Key} {table part : Table Key Data}
    {key : Key} :
    Recurses callbacks key part table.unflagged ↔
      ∃ parted, Recurses callbacks key parted table ∧ part = parted.unflagged := by
  constructor
  · rintro ⟨blockIdx, wide, probe, full, widening, parting⟩
    obtain ⟨widened, wider, rfl⟩ := Widened.unflagged_iff.mp widening
    rw [partitionBucket_unflagged] at parting
    obtain ⟨⟨parted, done⟩, parts, same⟩ := Option.map_eq_some_iff.mp parting
    obtain ⟨rfl, rfl⟩ := Prod.mk.inj same
    exact ⟨parted, ⟨blockIdx, widened, Probe.unflagged_iff.mp probe,
      (Bucket.unflagged_length _).symm.trans full, wider, parts⟩, rfl⟩
  · rintro ⟨parted, ⟨blockIdx, widened, probe, full, widening, parting⟩, rfl⟩
    refine ⟨blockIdx, widened.unflagged, Probe.unflagged_iff.mpr probe,
      (Bucket.unflagged_length _).trans full, Widened.unflagged_iff.mpr ⟨_, widening, rfl⟩, ?_⟩
    rw [Table.unflagged_depth, partitionBucket_unflagged, parting]
    rfl

theorem RunsOut.unflagged_iff {callbacks : Callbacks Key} {table : Table Key Data} {key : Key} :
    RunsOut callbacks key table.unflagged ↔ RunsOut callbacks key table := by
  constructor
  · intro out
    generalize unflagged_eq : table.unflagged = cleared at out
    induction out generalizing table with
    | exhausted probe full level deepest =>
      subst unflagged_eq
      exact .exhausted (Probe.unflagged_iff.mp probe)
        ((Bucket.unflagged_length _).symm.trans full) level deepest
    | later recurses again induction =>
      subst unflagged_eq
      obtain ⟨parted, parts, rfl⟩ := Recurses.unflagged_iff.mp recurses
      exact .later parts (induction rfl)
  · intro out
    induction out with
    | exhausted probe full level deepest =>
      exact .exhausted (Probe.unflagged_iff.mpr probe)
        ((Bucket.unflagged_length _).trans full) level deepest
    | later recurses again induction =>
      exact .later (Recurses.unflagged_iff.mpr ⟨_, recurses, rfl⟩) induction

theorem Usable.unflagged_iff {callbacks : Callbacks Key} {table after : Table Key Data} :
    Usable callbacks table.unflagged after.unflagged ↔ Usable callbacks table after := by
  constructor
  · rintro ⟨search, indices⟩
    refine ⟨fun key => ?_, indices⟩
    have same := search key
    rwa [hashSearch_unflagged, hashSearch_unflagged] at same
  · rintro ⟨search, indices⟩
    refine ⟨fun key => ?_, indices⟩
    rw [hashSearch_unflagged, hashSearch_unflagged]
    exact search key

theorem allSlots_unflagged (table : Table Key Data) :
    allSlots table.unflagged = (allSlots table).map Slot.unflagged := by
  simp only [allSlots, List.map_flatMap]
  rfl

theorem AllBelow.unflagged_iff {callbacks : Callbacks Key} {table : Table Key Data} :
    AllBelow callbacks table.unflagged ↔ AllBelow callbacks table := by
  constructor
  · rintro ⟨keys, slots⟩
    refine ⟨keys, fun slot member => slots slot.unflagged ?_⟩
    rw [allSlots_unflagged]
    exact List.mem_map_of_mem member
  · rintro ⟨keys, slots⟩
    refine ⟨keys, fun slot member => ?_⟩
    rw [allSlots_unflagged] at member
    obtain ⟨stored, inside, rfl⟩ := List.mem_map.mp member
    exact slots stored inside

end Wisebot.Hash
