import Mathlib.Data.List.Range
import Mathlib.Data.List.Perm.Basic
import Mathlib.Data.List.Nodup
import Mathlib.Tactic.Ring
import Wisebot.Hash.Search

namespace Wisebot.Hash

/-! The shape of a sorted table: every bucket owns the directory entries and
the hash keys that begin with its `home` prefix. -/

variable {Key Data : Type}

structure BucketLayout (depth : Nat) (directory : Nat → Nat)
    (blockIdx home : Nat) (bucket : Bucket Key Data) : Prop where
  flag : bucket.sorted = .sorted
  depth_le : bucket.depth ≤ depth
  owner : ∀ index < 2 ^ depth,
    directory index = blockIdx ↔ index / 2 ^ (depth - bucket.depth) = home
  sorted : SlotsSorted bucket.slots
  length_le : bucket.slots.length ≤ hashSlotNum
  prefixed : ∀ slot ∈ bucket.slots,
    slot.hashkey.value / 2 ^ (32 - bucket.depth) = home
  kept : ∀ slot ∈ bucket.slots, slot.deleted = false
  home_lt : home < 2 ^ bucket.depth

structure Layout (home : Nat → Nat) (table : Table Key Data) : Prop where
  depth_le : table.depth ≤ hashMaxDepth
  flag : table.sorted = .sorted
  nBucket_le : table.nBucket ≤ hashMemBlockNum * hashBucketPerBlock
  directory_lt : ∀ index < 2 ^ table.depth, table.directory index < table.nBucket
  buckets : ∀ blockIdx < table.nBucket,
    BucketLayout table.depth table.directory blockIdx (home blockIdx)
      (table.bucket blockIdx)

def WellFormed (table : Table Key Data) : Prop :=
  ∃ home, Layout home table

def allSlots (table : Table Key Data) : List (Slot Key Data) :=
  (List.range table.nBucket).flatMap fun blockIdx =>
    (table.bucket blockIdx).slots

theorem mem_allSlots {table : Table Key Data} {slot : Slot Key Data} :
    slot ∈ allSlots table ↔
      ∃ blockIdx < table.nBucket, slot ∈ (table.bucket blockIdx).slots := by
  simp [allSlots, List.mem_flatMap]

/-! Replacing the entry of one index in a concatenation over a range. -/

theorem flatMap_range_update {α : Type} (parts : Nat → List α) {count index : Nat}
    (bound : index < count) :
    ∃ rest : List α,
      ((List.range count).flatMap parts).Perm (parts index ++ rest) ∧
      ∀ replaced : List α,
        ((List.range count).flatMap (Function.update parts index replaced)).Perm
          (replaced ++ rest) := by
  have nodup : (List.range count).Nodup := List.nodup_range
  have perm := List.perm_cons_erase (List.mem_range.mpr bound)
  refine ⟨((List.range count).erase index).flatMap parts, ?_, fun replaced => ?_⟩
  · have flat := perm.flatMap_right parts
    rwa [List.flatMap_cons] at flat
  · have flat := perm.flatMap_right (Function.update parts index replaced)
    rw [List.flatMap_cons, Function.update_self] at flat
    have others : ((List.range count).erase index).flatMap
        (Function.update parts index replaced) =
        ((List.range count).erase index).flatMap parts := by
      apply List.flatMap_congr
      intro other member
      rw [Function.update_of_ne (nodup.mem_erase_iff.mp member).1]
    rwa [others] at flat

theorem slots_update (table : Table Key Data) (blockIdx : Nat)
    (bucket : Bucket Key Data) :
    (fun index => (Function.update table.bucket blockIdx bucket index).slots) =
      Function.update (fun index => (table.bucket index).slots) blockIdx
        bucket.slots := by
  funext index
  by_cases same : index = blockIdx
  · subst same
    simp
  · simp [Function.update_of_ne same]

theorem spreadDown_apply (count : Nat) (directory : Nat → Nat) (index : Nat) :
    spreadDown count directory index =
      if index < count then directory (index / 2) else directory index := by
  induction count generalizing directory with
  | zero => simp [spreadDown]
  | succ count induction =>
    rw [spreadDown, induction]
    rcases Nat.lt_trichotomy index count with below | rfl | above
    · have half : index / 2 ≠ count := by omega
      simp [below, Function.update_of_ne half, Nat.lt_succ_of_lt below]
    · simp
    · have differs : index ≠ count := by omega
      simp [Function.update_of_ne differs, Nat.not_lt.mpr above.le,
        show ¬ index < count + 1 by omega]

theorem div_two_div_pow (index : Nat) {local' depth : Nat} (le : local' ≤ depth) :
    index / 2 / 2 ^ (depth - local') = index / 2 ^ (depth + 1 - local') := by
  rw [Nat.div_div_eq_div_mul, Nat.succ_sub le, Nat.pow_succ, Nat.mul_comm]

theorem Layout.doubleTable {home : Nat → Nat} {table doubled : Table Key Data}
    (layout : Layout home table)
    (grown : doubleTable table = (doubled, true)) :
    Layout home doubled ∧ doubled.bucket = table.bucket ∧
      doubled.nBucket = table.nBucket ∧ doubled.nSlot = table.nSlot ∧
      doubled.depth = table.depth + 1 := by
  unfold Hash.doubleTable at grown
  simp only at grown
  split at grown
  case isTrue => cases grown
  case isFalse small =>
    cases grown
    have half : ∀ index < 2 ^ (table.depth + 1), index / 2 < 2 ^ table.depth := by
      intro index bound
      rw [Nat.pow_succ] at bound
      omega
    refine ⟨⟨by simp only; omega, layout.flag, layout.nBucket_le, ?_, ?_⟩,
      rfl, rfl, rfl, rfl⟩
    · intro index bound
      simp only [spreadDown_apply, if_pos bound]
      exact layout.directory_lt _ (half index bound)
    · intro blockIdx lt
      have bucket := layout.buckets blockIdx lt
      refine { bucket with
        depth_le := Nat.le_succ_of_le bucket.depth_le
        owner := ?_ }
      intro index bound
      simp only [spreadDown_apply, if_pos bound]
      rw [← div_two_div_pow index bucket.depth_le]
      exact bucket.owner _ (half index bound)

/-! Splitting a bucket by the next bit of its hash keys. -/

theorem findIdx_drop_all {slots : List (Slot Key Data)} (bit : Slot Key Data → Bool)
    (upward : slots.Pairwise fun first second =>
      bit first = true → bit second = true) :
    (∀ slot ∈ slots.take (slots.findIdx bit), bit slot = false) ∧
    ∀ slot ∈ slots.drop (slots.findIdx bit), bit slot = true := by
  induction slots with
  | nil => simp
  | cons slot rest induction =>
    obtain ⟨above, restUpward⟩ := List.pairwise_cons.mp upward
    cases set : bit slot with
    | true =>
      simp only [List.findIdx_cons, set, cond_true, List.take_zero,
        List.drop_zero]
      refine ⟨by simp, fun other member => ?_⟩
      rcases List.mem_cons.mp member with rfl | inRest
      · exact set
      · exact above other inRest set
    | false =>
      obtain ⟨low, high⟩ := induction restUpward
      simp only [List.findIdx_cons, set, cond_false, List.take_succ_cons,
        List.drop_succ_cons]
      exact ⟨by simpa [set] using low, high⟩

theorem value_div_half (value : Nat) {depth : Nat} (bound : depth < 32) :
    value / 2 ^ (32 - depth) = value / 2 ^ (32 - (depth + 1)) / 2 := by
  rw [Nat.div_div_eq_div_mul, ← Nat.pow_succ]
  congr 2
  omega

theorem index_div_half (index : Nat) {low high : Nat} (bound : low < high) :
    index / 2 ^ (high - low) = index / 2 ^ (high - low - 1) / 2 := by
  rw [Nat.div_div_eq_div_mul, ← Nat.pow_succ]
  congr 2
  omega

/-- The halves of a split bucket, below and above the next bit. -/
structure SplitHalves (src : Bucket Key Data) (home : Nat)
    (lower upper : List (Slot Key Data)) : Prop where
  parts : lower ++ upper = src.slots
  lower_prefix : ∀ slot ∈ lower,
    slot.hashkey.value / 2 ^ (32 - (src.depth + 1)) = 2 * home
  upper_prefix : ∀ slot ∈ upper,
    slot.hashkey.value / 2 ^ (32 - (src.depth + 1)) = 2 * home + 1

theorem BucketLayout.splitHalves {depth : Nat} {directory : Nat → Nat}
    {blockIdx home : Nat} {src : Bucket Key Data}
    (bucket : BucketLayout depth directory blockIdx home src)
    (room : src.depth < 32) :
    let split := src.slots.findIdx fun slot =>
      getPrefix slot.hashkey (src.depth + 1) % 2 = 1
    SplitHalves src home (src.slots.take split) (src.slots.drop split) := by
  intro split
  have halves : ∀ slot ∈ src.slots,
      slot.hashkey.value / 2 ^ (32 - (src.depth + 1)) / 2 = home := by
    intro slot member
    rw [← value_div_half _ room]
    exact bucket.prefixed slot member
  have bits := findIdx_drop_all
    (fun slot => getPrefix slot.hashkey (src.depth + 1) % 2 = 1) (by
      refine bucket.sorted.imp_of_mem ?_
      intro first second firstIn secondIn le
      simp only [getPrefix_eq _ (show src.depth + 1 ≤ 32 by omega),
        decide_eq_true_eq]
      have order : first.hashkey.value / 2 ^ (32 - (src.depth + 1)) ≤
          second.hashkey.value / 2 ^ (32 - (src.depth + 1)) :=
        Nat.div_le_div_right le
      have firstHome := halves first firstIn
      have secondHome := halves second secondIn
      omega)
  simp only [getPrefix_eq _ (show src.depth + 1 ≤ 32 by omega),
    decide_eq_true_eq, decide_eq_false_iff_not] at bits
  have splitEq : split = src.slots.findIdx fun slot =>
      slot.hashkey.value / 2 ^ (32 - (src.depth + 1)) % 2 = 1 := by
    simp only [split, getPrefix_eq _ (show src.depth + 1 ≤ 32 by omega)]
  rw [splitEq]
  refine ⟨List.take_append_drop _ _, ?_, ?_⟩
  · intro slot member
    have low := bits.1 slot member
    have both := halves slot (List.mem_of_mem_take member)
    omega
  · intro slot member
    have high := bits.2 slot member
    have both := halves slot (List.mem_of_mem_drop member)
    omega

theorem BucketLayout.owner_half {depth : Nat} {directory : Nat → Nat}
    {blockIdx home : Nat} {src : Bucket Key Data}
    (bucket : BucketLayout depth directory blockIdx home src)
    (room : src.depth < depth) {index : Nat} (bound : index < 2 ^ depth) :
    directory index = blockIdx ↔
      index / 2 ^ (depth - src.depth - 1) / 2 = home := by
  rw [bucket.owner index bound, index_div_half index room]

theorem Layout.splitBucket {home : Nat → Nat} {table : Table Key Data}
    {srcIdx : Nat} (layout : Layout home table) (srcBound : srcIdx < table.nBucket)
    (room : (table.bucket srcIdx).depth < table.depth)
    (space : table.nBucket < hashMemBlockNum * hashBucketPerBlock) :
    WellFormed (splitBucket table srcIdx (table.bucket srcIdx)) := by
  have source := layout.buckets srcIdx srcBound
  have depthBound := layout.depth_le
  have homeBound := source.home_lt
  have halves := source.splitHalves (by unfold hashMaxDepth at depthBound; omega)
  simp only at halves
  have shift : table.depth - ((table.bucket srcIdx).depth + 1) =
      table.depth - (table.bucket srcIdx).depth - 1 := by omega
  have sortedHalves := source.sorted
  rw [← halves.parts, SlotsSorted, List.pairwise_append] at sortedHalves
  refine ⟨Function.update
    (Function.update home table.nBucket (2 * home srcIdx + 1))
    srcIdx (2 * home srcIdx), layout.depth_le, layout.flag, ?_, ?_, ?_⟩
  · simp only [Hash.splitBucket]
    omega
  · intro index bound
    simp only [Hash.splitBucket] at bound ⊢
    split
    · omega
    · have lt := layout.directory_lt index bound
      omega
  · intro blockIdx blockBound
    simp only [Hash.splitBucket] at blockBound ⊢
    by_cases isSource : blockIdx = srcIdx
    · subst isSource
      simp only [Function.update_self]
      refine ⟨source.flag, room, ?_, sortedHalves.1,
        (List.take_sublist _ _).length_le.trans source.length_le,
        halves.lower_prefix,
        fun slot member => source.kept slot (List.mem_of_mem_take member),
        by simp only [Nat.pow_succ]; omega⟩
      intro index bound
      have half := source.owner_half room bound
      simp only [shift, bound, true_and]
      split
      case isTrue upper => omega
      case isFalse lower => omega
    · rw [Function.update_of_ne isSource, Function.update_of_ne isSource]
      by_cases isNew : blockIdx = table.nBucket
      · subst isNew
        simp only [Function.update_self]
        refine ⟨layout.flag, room, ?_, sortedHalves.2.1,
          (List.drop_sublist _ _).length_le.trans source.length_le,
          halves.upper_prefix,
          fun slot member => source.kept slot (List.mem_of_mem_drop member),
          by simp only [Nat.pow_succ]; omega⟩
        intro index bound
        have half := source.owner_half room bound
        have lt := layout.directory_lt index bound
        simp only [shift, bound, true_and]
        split
        case isTrue upper => omega
        case isFalse lower => omega
      · rw [Function.update_of_ne isNew, Function.update_of_ne isNew]
        have bucket := layout.buckets blockIdx (by omega)
        refine { bucket with owner := ?_ }
        intro index bound
        simp only [bound, true_and]
        rw [← bucket.owner index bound]
        split
        case isTrue upper => omega
        case isFalse => rfl

theorem splitBucket_slots (table : Table Key Data) {srcIdx : Nat}
    (srcBound : srcIdx < table.nBucket) :
    (allSlots (splitBucket table srcIdx (table.bucket srcIdx))).Perm
      (allSlots table) := by
  have split := flatMap_range_update
    (fun index => (table.bucket index).slots) srcBound
  obtain ⟨rest, before, after⟩ := split
  have fresh : srcIdx ≠ table.nBucket := by omega
  simp only [allSlots, Hash.splitBucket, List.range_succ, List.flatMap_append,
    List.flatMap_singleton]
  rw [Function.update_of_ne fresh.symm, Function.update_self]
  have inside : ∀ index ∈ List.range table.nBucket, index ≠ table.nBucket :=
    fun index member => Nat.ne_of_lt (List.mem_range.mp member)
  generalize (table.bucket srcIdx).slots.findIdx _ = position
  have lower : ((List.range table.nBucket).flatMap fun index =>
      (Function.update (Function.update table.bucket table.nBucket
        { slots := (table.bucket srcIdx).slots.drop position
          depth := (table.bucket srcIdx).depth + 1
          sorted := table.sorted }) srcIdx
        { table.bucket srcIdx with
          slots := (table.bucket srcIdx).slots.take position
          depth := (table.bucket srcIdx).depth + 1 } index).slots) =
      (List.range table.nBucket).flatMap
        (Function.update (fun index => (table.bucket index).slots) srcIdx
          ((table.bucket srcIdx).slots.take position)) := by
    apply List.flatMap_congr
    intro index member
    by_cases same : index = srcIdx
    · subst same
      simp
    · simp [Function.update_of_ne same, Function.update_of_ne (inside index member)]
  rw [lower]
  refine ((after _).append_right _).trans (.trans ?_ before.symm)
  rw [List.append_assoc]
  refine (List.perm_append_comm.append_left _).trans ?_
  rw [← List.append_assoc, List.take_append_drop]

/-! What `partitionBucket` can do. -/

theorem directoryAt_eq_some {table : Table Key Data} {bucketIdx blockIdx : Nat} :
    table.directoryAt bucketIdx = some blockIdx ↔
      bucketIdx < hashMaxBucket ∧ table.directory bucketIdx = blockIdx := by
  simp [Table.directoryAt]

theorem getBucket_eq_some {table : Table Key Data} {blockIdx : Nat}
    {bucket : Bucket Key Data} :
    table.getBucket blockIdx = some bucket ↔
      blockIdx < hashMemBlockNum * hashBucketPerBlock ∧
        table.bucket blockIdx = bucket := by
  simp [Table.getBucket, Nat.div_lt_iff_lt_mul (show 0 < hashBucketPerBlock by decide)]

theorem partitionBucket_split {callbacks : Callbacks Key}
    {table parted : Table Key Data} {bucketIdx : Nat}
    (result : partitionBucket callbacks table bucketIdx = some (parted, true)) :
    table.sorted = .sorted ∧
    (table.bucket (table.directory bucketIdx)).depth < table.depth ∧
    table.nBucket < hashMemBlockNum * hashBucketPerBlock ∧
    ∃ nMemBlock, parted = splitBucket { table with nMemBlock := nMemBlock }
      (table.directory bucketIdx) (table.bucket (table.directory bucketIdx)) := by
  unfold partitionBucket at result
  split at result
  case isTrue => cases result
  rename_i flag
  split at result
  case h_1 => cases result
  rename_i srcIdx inDirectory
  split at result
  case h_1 => cases result
  rename_i src inBlocks
  obtain ⟨-, rfl⟩ := directoryAt_eq_some.mp inDirectory
  obtain ⟨-, rfl⟩ := getBucket_eq_some.mp inBlocks
  split at result
  case isTrue => cases result
  rename_i deeper
  simp only at result
  split at result
  case isTrue => cases result
  split at result
  case isTrue => cases result
  split at result
  case h_1 => cases result
  rename_i fresh
  split at result
  case isTrue => cases result
  cases result
  exact ⟨by simpa using flag, by omega, (getBucket_eq_some.mp fresh).1, _, rfl⟩

theorem partitionBucket_refused {callbacks : Callbacks Key}
    {table parted : Table Key Data} {bucketIdx : Nat}
    (result : partitionBucket callbacks table bucketIdx = some (parted, false)) :
    ∃ nMemBlock, parted = { table with nMemBlock := nMemBlock } := by
  simp only [partitionBucket] at result
  repeat' split at result
  all_goals cases result
  all_goals exact ⟨_, rfl⟩

theorem WellFormed.partitionBucket {callbacks : Callbacks Key}
    {table parted : Table Key Data} {bucketIdx : Nat}
    (formed : WellFormed table) (bound : bucketIdx < 2 ^ table.depth)
    (result : partitionBucket callbacks table bucketIdx = some (parted, true)) :
    WellFormed parted ∧ (allSlots parted).Perm (allSlots table) ∧
      parted.nSlot = table.nSlot := by
  obtain ⟨home, layout⟩ := formed
  obtain ⟨_, room, space, nMemBlock, rfl⟩ := partitionBucket_split result
  have srcBound := layout.directory_lt bucketIdx bound
  have grown : Layout home { table with nMemBlock := nMemBlock } :=
    ⟨layout.depth_le, layout.flag, layout.nBucket_le, layout.directory_lt,
      layout.buckets⟩
  exact ⟨grown.splitBucket srcBound room space,
    splitBucket_slots { table with nMemBlock := nMemBlock } srcBound, rfl⟩

/-! Every slot with a given hash key lies in the bucket the directory names
for that key. -/

theorem Layout.located {home : Nat → Nat} {table : Table Key Data}
    (layout : Layout home table) (hashkey : HashKey) :
    ∃ blockIdx < table.nBucket,
      getPrefix hashkey table.depth < 2 ^ table.depth ∧
      table.directoryAt (getPrefix hashkey table.depth) = some blockIdx ∧
      table.getBucket blockIdx = some (table.bucket blockIdx) ∧
      hashkey.value / 2 ^ (32 - (table.bucket blockIdx).depth) =
        home blockIdx ∧
      ∀ slot ∈ allSlots table, slot.hashkey = hashkey →
        slot ∈ (table.bucket blockIdx).slots := by
  have depthBound : table.depth ≤ 22 := layout.depth_le
  have short : table.depth ≤ 32 := by omega
  have indexEq := getPrefix_eq hashkey short
  have indexBound : getPrefix hashkey table.depth < 2 ^ table.depth := by
    rw [indexEq, Nat.div_lt_iff_lt_mul (by positivity), ← Nat.pow_add,
      Nat.add_sub_of_le (by omega)]
    exact hashkey.value_lt
  have directoryBound : getPrefix hashkey table.depth < hashMaxBucket :=
    indexBound.trans_le (Nat.pow_le_pow_right (by decide) layout.depth_le)
  have blockBound := layout.directory_lt _ indexBound
  have prefixOf : ∀ blockIdx < table.nBucket,
      getPrefix hashkey table.depth /
        2 ^ (table.depth - (table.bucket blockIdx).depth) =
      hashkey.value / 2 ^ (32 - (table.bucket blockIdx).depth) := by
    intro blockIdx lt
    have localBound := (layout.buckets blockIdx lt).depth_le
    rw [indexEq, Nat.div_div_eq_div_mul, ← Nat.pow_add]
    congr 2
    omega
  refine ⟨_, blockBound, indexBound, if_pos directoryBound, if_pos ?_, ?_, ?_⟩
  · have capacity := layout.nBucket_le
    exact (Nat.div_lt_iff_lt_mul (by decide)).mpr (by omega)
  · rw [← prefixOf _ blockBound]
    exact ((layout.buckets _ blockBound).owner _ indexBound).mp rfl
  · intro slot member same
    obtain ⟨blockIdx, lt, inside⟩ := mem_allSlots.mp member
    have bucket := layout.buckets blockIdx lt
    have home_eq := bucket.prefixed slot inside
    rw [same, ← prefixOf blockIdx lt] at home_eq
    rw [(bucket.owner _ indexBound).mpr home_eq]
    exact inside

theorem Layout.setBucket {home : Nat → Nat} {table : Table Key Data}
    (layout : Layout home table) {blockIdx : Nat} {bucket : Bucket Key Data}
    (replaced : BucketLayout table.depth table.directory blockIdx
      (home blockIdx) bucket) :
    Layout home (table.setBucket blockIdx bucket) := by
  refine ⟨layout.depth_le, layout.flag, layout.nBucket_le,
    layout.directory_lt, ?_⟩
  intro other bound
  simp only [Table.setBucket]
  by_cases same : other = blockIdx
  · subst same
    rw [Function.update_self]
    exact replaced
  · rw [Function.update_of_ne same]
    exact layout.buckets other bound

theorem setBucket_slots (table : Table Key Data) {blockIdx : Nat}
    (bound : blockIdx < table.nBucket) :
    ∃ rest,
      (allSlots table).Perm ((table.bucket blockIdx).slots ++ rest) ∧
      ∀ bucket, (allSlots (table.setBucket blockIdx bucket)).Perm
        (bucket.slots ++ rest) := by
  obtain ⟨rest, before, after⟩ := flatMap_range_update
    (fun index => (table.bucket index).slots) bound
  refine ⟨rest, before, fun bucket => ?_⟩
  simp only [allSlots, Table.setBucket, slots_update]
  exact after bucket.slots

end Wisebot.Hash
