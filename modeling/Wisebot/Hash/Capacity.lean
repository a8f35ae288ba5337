import Wisebot.Hash.Map

namespace Wisebot.Hash

/-! How much a table can hold: `hash_add` is never refused while fewer than
`hashSlotNum` stored keys share their first `limit` bits. -/

variable {Key Data : Type}

theorem Layout.nBucket_le_pow {home : Nat → Nat} {table : Table Key Data}
    (layout : Layout home table) : table.nBucket ≤ 2 ^ table.depth := by
  have covered : List.range table.nBucket ⊆
      (List.range (2 ^ table.depth)).map table.directory := by
    intro blockIdx member
    have bound := List.mem_range.mp member
    have bucket := layout.buckets blockIdx bound
    have level := bucket.depth_le
    have entry : home blockIdx *
        2 ^ (table.depth - (table.bucket blockIdx).depth) < 2 ^ table.depth := by
      have scaled := Nat.mul_lt_mul_of_pos_right bucket.home_lt
        (Nat.two_pow_pos (table.depth - (table.bucket blockIdx).depth))
      rwa [← Nat.pow_add, Nat.add_sub_of_le level] at scaled
    refine List.mem_map.mpr ⟨_, List.mem_range.mpr entry, ?_⟩
    rw [bucket.owner _ entry]
    exact Nat.mul_div_cancel _ (Nat.two_pow_pos _)
  have shorter := (List.nodup_range.subperm covered).length_le
  simpa using shorter

structure Spacious (limit : Nat) (table : Table Key Data) : Prop where
  formed : WellFormed table
  depth_le : table.depth ≤ limit
  blocks_enough : table.nBucket ≤ table.nMemBlock * hashBucketPerBlock
  blocks_needed : table.nMemBlock * hashBucketPerBlock <
    table.nBucket + hashBucketPerBlock

theorem Spacious.nBucket_le {limit : Nat} {table : Table Key Data}
    (spacious : Spacious limit table) : table.nBucket ≤ 2 ^ limit := by
  obtain ⟨home, layout⟩ := spacious.formed
  exact layout.nBucket_le_pow.trans
    (Nat.pow_le_pow_right (by decide) spacious.depth_le)

theorem nMemBlock_after_split {nBucket nMemBlock : Nat}
    (enough : nBucket ≤ nMemBlock * hashBucketPerBlock)
    (needed : nMemBlock * hashBucketPerBlock < nBucket + hashBucketPerBlock) :
    let next := if nBucket % hashBucketPerBlock = 0 then nMemBlock + 1
      else nMemBlock
    nBucket + 1 ≤ next * hashBucketPerBlock ∧
      next * hashBucketPerBlock < nBucket + 1 + hashBucketPerBlock := by
  have perBlock : hashBucketPerBlock = 10000 := rfl
  generalize hashBucketPerBlock = block at *
  subst perBlock
  simp only
  split <;> omega

theorem Spacious.partitionBucket {limit : Nat} {table : Table Key Data}
    {callbacks : Callbacks Key} {bucketIdx : Nat}
    (spacious : Spacious limit table) (count : table.nBucket ≤ 2097152)
    (allocates : ∀ dataIdx, callbacks.allocData dataIdx = true)
    (bound : bucketIdx < 2 ^ table.depth)
    (room : (table.bucket (table.directory bucketIdx)).depth < table.depth) :
    ∃ parted, partitionBucket callbacks table bucketIdx = some (parted, true) ∧
      Spacious limit parted ∧ parted.nBucket = table.nBucket + 1 := by
  obtain ⟨home, layout⟩ := spacious.formed
  have level := layout.depth_le
  have inDirectory : bucketIdx < hashMaxBucket :=
    bound.trans_le (Nat.pow_le_pow_right (by decide) level)
  have srcBound := layout.directory_lt bucketIdx bound
  have srcIn : table.directory bucketIdx <
      hashMemBlockNum * hashBucketPerBlock :=
    srcBound.trans_le layout.nBucket_le
  have capacity : 2097152 < hashMemBlockNum * hashBucketPerBlock := by decide
  have newIn : table.nBucket < hashMemBlockNum * hashBucketPerBlock := by omega
  have enough := spacious.blocks_enough
  have needed := spacious.blocks_needed
  have mapped : ∀ nMemBlock,
      Table.getBucket { table with nMemBlock := nMemBlock } table.nBucket =
        some (table.bucket table.nBucket) :=
    fun nMemBlock => getBucket_eq_some.mpr ⟨newIn, rfl⟩
  have mappable : ¬ (table.nBucket % hashBucketPerBlock = 0 ∧
      hashMemBlockNum ≤ table.nMemBlock) := by
    rintro ⟨_, tooMany⟩
    have product := Nat.mul_le_mul_right hashBucketPerBlock tooMany
    have margin : 2097152 + hashBucketPerBlock <
        hashMemBlockNum * hashBucketPerBlock := by decide
    omega
  have result : ∃ nMemBlock, table.nBucket + 1 ≤ nMemBlock * hashBucketPerBlock ∧
      nMemBlock * hashBucketPerBlock < table.nBucket + 1 + hashBucketPerBlock ∧
      Hash.partitionBucket callbacks table bucketIdx = some (splitBucket
        { table with nMemBlock := nMemBlock } (table.directory bucketIdx)
        (table.bucket (table.directory bucketIdx)), true) := by
    refine ⟨if table.nBucket % hashBucketPerBlock = 0 then table.nMemBlock + 1
      else table.nMemBlock, ?_, ?_, ?_⟩
    · exact (nMemBlock_after_split enough needed).1
    · exact (nMemBlock_after_split enough needed).2
    · unfold Hash.partitionBucket
      rw [if_neg (not_not_intro layout.flag)]
      simp only [directoryAt_eq_some.mpr ⟨inDirectory, rfl⟩,
        getBucket_eq_some.mpr ⟨srcIn, rfl⟩, if_neg (Nat.not_le.mpr room),
        allocates, not_true_eq_false, and_false, if_false, if_neg mappable,
        mapped, if_neg (Nat.not_lt.mpr level)]
  obtain ⟨nMemBlock, enough', needed', parting⟩ := result
  obtain ⟨partedFormed, _, _⟩ :=
    WellFormed.partitionBucket ⟨home, layout⟩ bound parting
  exact ⟨_, parting, ⟨partedFormed, spacious.depth_le, enough', needed'⟩, rfl⟩

theorem Layout.depth_lt_of_full {home : Nat → Nat} {table : Table Key Data}
    {limit blockIdx : Nat} (layout : Layout home table)
    (bound : blockIdx < table.nBucket)
    (full : (table.bucket blockIdx).slots.length = hashSlotNum)
    (spread : ∀ bits, (allSlots table).countP
      (fun slot => slot.hashkey.value / 2 ^ (32 - limit) = bits) < hashSlotNum) :
    (table.bucket blockIdx).depth ≠ limit := by
  intro atLimit
  have bucket := layout.buckets blockIdx bound
  have within : (table.bucket blockIdx).slots.countP (fun slot =>
      slot.hashkey.value / 2 ^ (32 - limit) = home blockIdx) = hashSlotNum := by
    rw [← full, List.countP_eq_length]
    intro slot member
    rw [← atLimit]
    exact decide_eq_true (bucket.prefixed slot member)
  obtain ⟨rest, perm, _⟩ := setBucket_slots table bound
  have few := spread (home blockIdx)
  rw [perm.countP_eq, List.countP_append, within] at few
  omega

theorem Spacious.doubleTable {limit : Nat} {table : Table Key Data}
    (spacious : Spacious limit table) (small : limit ≤ hashMaxDepth)
    (shallow : table.depth < limit) :
    ∃ doubled, doubleTable table = (doubled, true) ∧ Spacious limit doubled ∧
      doubled.bucket = table.bucket ∧ doubled.nBucket = table.nBucket ∧
      doubled.depth = table.depth + 1 := by
  obtain ⟨home, layout⟩ := spacious.formed
  have allowed : ¬ (4 * 8 < table.depth + 1 ∨ hashMaxDepth < table.depth + 1) := by
    simp only [hashMaxDepth] at small ⊢
    omega
  have grown : Hash.doubleTable table = ({ table with
      depth := table.depth + 1
      directory := spreadDown (2 ^ (table.depth + 1)) table.directory }, true) := by
    simp only [Hash.doubleTable, if_neg allowed]
  obtain ⟨doubled, _⟩ := layout.doubleTable grown
  exact ⟨_, grown, ⟨⟨home, doubled⟩, shallow, spacious.blocks_enough,
    spacious.blocks_needed⟩, rfl, rfl, rfl⟩

theorem hashAddFuel_accepts [DecidableEq Data] {callbacks : Callbacks Key}
    {limit fuel : Nat} {table : Table Key Data} (key : Key) (data : Data)
    (small : limit ≤ 21)
    (allocates : ∀ dataIdx, callbacks.allocData dataIdx = true)
    (spacious : Spacious limit table)
    (spread : ∀ bits, (allSlots table).countP
      (fun slot => slot.hashkey.value / 2 ^ (32 - limit) = bits) < hashSlotNum)
    (enough : 2 ^ limit < table.nBucket + fuel) :
    ∃ after reply, hashAddFuel callbacks fuel table key data =
        some (after, reply) ∧ Spacious limit after ∧
      (reply = .success ∨ ∃ stored, reply = .collision stored) := by
  induction fuel generalizing table with
  | zero =>
    have bound := spacious.nBucket_le
    omega
  | succ fuel induction =>
    obtain ⟨home, layout⟩ := spacious.formed
    obtain ⟨blockIdx, bound, indexBound, inDirectory, inBlocks, homed, _⟩ :=
      layout.located (callbacks.hashFunc key)
    have bucket := layout.buckets blockIdx bound
    have directory := (directoryAt_eq_some.mp inDirectory).2
    have again : ∀ widened : Table Key Data, Spacious limit widened →
        widened.nBucket = table.nBucket → allSlots widened = allSlots table →
        getPrefix (callbacks.hashFunc key) table.depth < 2 ^ widened.depth →
        (widened.bucket (widened.directory
          (getPrefix (callbacks.hashFunc key) table.depth))).depth <
            widened.depth →
        ∃ parted, partitionBucket callbacks widened
            (getPrefix (callbacks.hashFunc key) table.depth) =
              some (parted, true) ∧
          ∃ after reply, hashAddFuel callbacks fuel parted key data =
              some (after, reply) ∧ Spacious limit after ∧
            (reply = .success ∨ ∃ stored, reply = .collision stored) := by
      intro widened wide sameCount sameSlots wideBound room
      obtain ⟨parted, parting, partedSpacious, more⟩ :=
        wide.partitionBucket (wide.nBucket_le.trans
          (Nat.pow_le_pow_right (by decide) small)) allocates wideBound room
      obtain ⟨_, perm, _⟩ := wide.formed.partitionBucket wideBound parting
      refine ⟨parted, parting, induction partedSpacious ?_ (by omega)⟩
      intro bits
      rw [perm.countP_eq, sameSlots]
      exact spread bits
    simp only [hashAddFuel, inDirectory, inBlocks]
    cases search : findSlot callbacks (table.bucket blockIdx) key
        (callbacks.hashFunc key) with
    | some found =>
      obtain ⟨slot, stored, _, _, kept⟩ := layout.findSlot_present bound search
      simp only [stored]
      by_cases same : slot.data = data
      · simp only [if_pos same, set_undeleted stored kept]
        rw [setBucket_self]
        exact ⟨table, _, rfl, spacious, .inl rfl⟩
      · simp only [if_neg same]
        exact ⟨table, _, rfl, spacious, .inr ⟨_, rfl⟩⟩
    | none =>
      by_cases full : (table.bucket blockIdx).slots.length = hashSlotNum
      · have level := bucket.depth_le
        have below := layout.depth_lt_of_full bound full spread
        have depthBound := spacious.depth_le
        simp only [if_pos full]
        by_cases even : (table.bucket blockIdx).depth = table.depth
        · obtain ⟨doubled, grown, doubledSpacious, sameBuckets, sameCount,
            deeper⟩ := spacious.doubleTable (small.trans (by decide)) (by omega)
          obtain ⟨layoutDoubled, _⟩ := layout.doubleTable grown
          have wideBound : getPrefix (callbacks.hashFunc key) table.depth <
              2 ^ doubled.depth := by
            rw [deeper, Nat.pow_succ]
            omega
          have shallow : (doubled.bucket (doubled.directory
              (getPrefix (callbacks.hashFunc key) table.depth))).depth <
                doubled.depth := by
            have lower := layoutDoubled.directory_lt _ wideBound
            rw [sameCount] at lower
            have older := (layout.buckets _ lower).depth_le
            rw [sameBuckets, deeper]
            omega
          obtain ⟨parted, parting, result⟩ := again doubled doubledSpacious
            sameCount (by simp only [allSlots, sameBuckets, sameCount])
            wideBound shallow
          simpa only [if_pos even, grown, parting] using result
        · have shallow : (table.bucket blockIdx).depth < table.depth := by omega
          obtain ⟨parted, parting, result⟩ := again table spacious rfl rfl
            indexBound (by rw [directory]; exact shallow)
          simpa only [if_neg even, if_pos shallow, parting] using result
      · have room : (table.bucket blockIdx).slots.length < hashSlotNum :=
          Nat.lt_of_le_of_ne bucket.length_le full
        have stored := layout.storeAt (newSlot callbacks key data)
          bound homed room rfl
        simp only [if_neg full, if_neg (Nat.not_lt.mpr bucket.length_le)]
        split
        case h_1 =>
          exact ⟨_, _, rfl, ⟨⟨home, stored⟩, spacious.depth_le,
            spacious.blocks_enough, spacious.blocks_needed⟩, .inl rfl⟩
        case h_2 flag =>
          rw [bucket.flag] at flag
          cases flag
        case h_3 flag =>
          rw [bucket.flag] at flag
          cases flag

theorem hashAdd_accepts [DecidableEq Data] (callbacks : Callbacks Key)
    {limit : Nat} {table : Table Key Data} (key : Key) (data : Data)
    (small : limit ≤ 21)
    (allocates : ∀ dataIdx, callbacks.allocData dataIdx = true)
    (spacious : Spacious limit table)
    (spread : ∀ bits, (allSlots table).countP
      (fun slot => slot.hashkey.value / 2 ^ (32 - limit) = bits) < hashSlotNum) :
    ∃ after reply, hashAdd callbacks table key data = some (after, reply) ∧
      Spacious limit after ∧
      (reply = .success ∨ ∃ stored, reply = .collision stored) := by
  refine hashAddFuel_accepts key data small allocates spacious spread ?_
  have pow : 2 ^ limit ≤ 2 ^ 21 := Nat.pow_le_pow_right (by decide) small
  have fuel : 2 ^ 21 < hashMaxBucket + 1 := by decide
  omega

theorem hashOpen_spacious {callbacks : Callbacks Key} {table : Table Key Data}
    (opened : hashOpen callbacks 0 .sorted = some table) (limit : Nat) :
    Spacious limit table := by
  have formed := (hashOpen_formed opened).1
  unfold hashOpen at opened
  simp only at opened
  split at opened
  case isTrue => cases opened
  split at opened
  case isTrue => cases opened
  split at opened
  case isFalse => cases opened
  cases opened
  exact ⟨formed, Nat.zero_le _, by simp [hashBucketPerBlock],
    by simp [hashBucketPerBlock]⟩

end Wisebot.Hash
