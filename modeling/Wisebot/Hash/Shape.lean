import Mathlib.Data.Finset.Card
import Wisebot.Hash.FirstWrite
import Wisebot.Lib.Transition

namespace Wisebot.Hash

open Lib

/-! The shape of the tables that `hash_add` leaves, in the words of the directory: the
entries of a bucket are a run of consecutive indices. -/

variable {Key Data : Type}

/-- A bucket whose entries and hash keys begin with `bits`. -/
structure BucketShape (table : Table Key Data) (blockIdx bits : Nat) : Prop where
  depth_le : (table.bucket blockIdx).depth ≤ table.depth
  bits_lt : bits < 2 ^ (table.bucket blockIdx).depth
  entries : ∀ index < 2 ^ table.depth, table.directory index = blockIdx ↔
    bits * 2 ^ (table.depth - (table.bucket blockIdx).depth) ≤ index ∧
      index < (bits + 1) * 2 ^ (table.depth - (table.bucket blockIdx).depth)
  hashkeys : ∀ slot ∈ (table.bucket blockIdx).slots,
    getPrefix slot.hashkey (table.bucket blockIdx).depth = bits
  sorted : (table.bucket blockIdx).slots.Pairwise fun first second =>
    hashkeycmp first.hashkey second.hashkey ≠ .gt
  few : (table.bucket blockIdx).slots.length ≤ hashSlotNum

structure TableShape (table : Table Key Data) : Prop where
  buckets : ∀ blockIdx < table.nBucket, ∃ bits, BucketShape table blockIdx bits
  directory : (Finset.range (2 ^ table.depth)).image table.directory =
    Finset.range table.nBucket
  counted : ((Finset.range (2 ^ table.depth)).image table.directory).card = table.nBucket

theorem BucketLayout.shape {home blockIdx : Nat} {table : Table Key Data}
    (bucket : BucketLayout table.depth table.directory blockIdx home (table.bucket blockIdx))
    (shallow : table.depth ≤ hashMaxDepth) : BucketShape table blockIdx home where
  depth_le := bucket.depth_le
  bits_lt := bucket.home_lt
  entries := by
    intro index bound
    rw [bucket.owner index bound, Nat.div_eq_iff (Nat.two_pow_pos _), Nat.add_mul, Nat.one_mul]
    have positive := Nat.two_pow_pos (table.depth - (table.bucket blockIdx).depth)
    omega
  hashkeys := by
    intro slot member
    have level := bucket.depth_le
    rw [hashMaxDepth] at shallow
    rw [getPrefix_eq slot.hashkey (by omega)]
    exact bucket.prefixed slot member
  sorted := bucket.sorted.imp fun ordered above =>
    absurd (hashkeycmp_gt.mp above) (Nat.not_lt.mpr ordered)
  few := bucket.length_le

theorem Layout.entry {home : Nat → Nat} {table : Table Key Data} (layout : Layout home table)
    {blockIdx : Nat} (bound : blockIdx < table.nBucket) :
    ∃ index < 2 ^ table.depth, table.directory index = blockIdx := by
  have bucket := layout.buckets blockIdx bound
  have level := bucket.depth_le
  have inside : home blockIdx * 2 ^ (table.depth - (table.bucket blockIdx).depth) <
      2 ^ table.depth := by
    have scaled := Nat.mul_lt_mul_of_pos_right bucket.home_lt
      (Nat.two_pow_pos (table.depth - (table.bucket blockIdx).depth))
    rwa [← Nat.pow_add, Nat.add_sub_of_le level] at scaled
  refine ⟨_, inside, ?_⟩
  rw [bucket.owner _ inside]
  exact Nat.mul_div_cancel _ (Nat.two_pow_pos _)

theorem WellFormed.shape {table : Table Key Data} (formed : WellFormed table) :
    TableShape table := by
  obtain ⟨home, layout⟩ := formed
  have directory : (Finset.range (2 ^ table.depth)).image table.directory =
      Finset.range table.nBucket := by
    ext blockIdx
    simp only [Finset.mem_image, Finset.mem_range]
    constructor
    · rintro ⟨index, bound, rfl⟩
      exact layout.directory_lt index bound
    · exact layout.entry
  exact ⟨fun blockIdx bound => ⟨_, (layout.buckets blockIdx bound).shape layout.depth_le⟩,
    directory, by rw [directory, Finset.card_range]⟩

def AddResult.Accepted : AddResult Data → Prop
  | .success => True
  | .collision _ => True
  | .overflow => False
  | .fail => False

/-- A `hash_add` that returns `SUCCESS` or `HASH_COLLISION`. -/
def addStep [DecidableEq Data] (callbacks : Callbacks Key) (table : Table Key Data)
    (entry : Key × Data) : Option (Table Key Data) :=
  match hashAdd callbacks table entry.1 entry.2 with
  | some (after, .success) => some after
  | some (after, .collision _) => some after
  | _ => none

theorem hashAdd_of_addStep [DecidableEq Data] {callbacks : Callbacks Key}
    {table after : Table Key Data} {entry : Key × Data}
    (stepped : addStep callbacks table entry = some after) :
    ∃ reply, hashAdd callbacks table entry.1 entry.2 = some (after, reply) ∧ reply.Accepted := by
  rw [addStep] at stepped
  split at stepped
  · next added =>
    cases stepped
    exact ⟨_, added, trivial⟩
  · next added =>
    cases stepped
    exact ⟨_, added, trivial⟩
  · cases stepped

/-- `hash_add` keeps the layout, also where the stale index makes it split a bucket that
is not full. -/
theorem hashAddFuel_formed [DecidableEq Data] {callbacks : Callbacks Key} {fuel : Nat}
    {table after : Table Key Data} {key : Key} {data : Data} {reply : AddResult Data}
    (formed : WellFormed table)
    (result : hashAddFuel callbacks fuel table key data = some (after, reply))
    (accepted : reply.Accepted) : WellFormed after := by
  induction fuel generalizing table with
  | zero => cases result
  | succ fuel induction =>
    obtain ⟨home, layout⟩ := formed
    obtain ⟨blockIdx, bound, indexBound, inDirectory, inBlocks, homed, covers⟩ :=
      layout.located (callbacks.hashFunc key)
    have bucket := layout.buckets blockIdx bound
    cases hashAddFuel_cases result with
    | noBucket => exact accepted.elim
    | present probe stored same =>
      obtain rfl := probe.located inDirectory
      obtain ⟨slot, at_found, member, equal, kept⟩ :=
        layout.findSlot_present bound probe.findSlot_eq
      obtain rfl := Option.some.inj (stored.symm.trans at_found)
      rw [set_undeleted stored kept]
      exact (setBucket_self table _).symm ▸ ⟨home, layout⟩
    | collision => exact ⟨home, layout⟩
    | undoubled => exact accepted.elim
    | unsplit => exact accepted.elim
    | split probe full wide parting again =>
      obtain rfl := probe.located inDirectory
      obtain ⟨widenedFormed, _, _, wideBound⟩ := wide.keeps ⟨home, layout⟩ indexBound
      exact induction (widenedFormed.partitionBucket wideBound parting).1 again
    | tooDeep => exact accepted.elim
    | tooMany => exact accepted.elim
    | insertSorted probe room flag =>
      obtain rfl := probe.located inDirectory
      exact ⟨home, layout.storeAt (newSlot callbacks key data) bound homed room rfl⟩
    | insertUnsorted probe room flag =>
      obtain rfl := probe.located inDirectory
      rw [bucket.flag] at flag
      cases flag
    | sorting => exact accepted.elim

/-- The call of `hash_add` on `table` calls itself on `parted`. -/
def Recurses (callbacks : Callbacks Key) (key : Key) (parted table : Table Key Data) : Prop :=
  ∃ blockIdx widened, Probe callbacks table key blockIdx none ∧
    (table.bucket blockIdx).slots.length = hashSlotNum ∧ Widened table blockIdx widened ∧
    partitionBucket callbacks widened (getPrefix (callbacks.hashFunc key) table.depth) =
      some (parted, true)

theorem hashAddFuel_recurses [DecidableEq Data] {callbacks : Callbacks Key}
    {table parted : Table Key Data} {key : Key} (recurses : Recurses callbacks key parted table)
    (fuel : Nat) (data : Data) :
    hashAddFuel callbacks (fuel + 1) table key data = hashAddFuel callbacks fuel parted key data := by
  obtain ⟨blockIdx, widened, probe, full, wide, parting⟩ := recurses
  simp only [hashAddFuel, probe.directoryAt_eq, probe.getBucket_eq, probe.findSlot_eq, if_pos full]
  rcases wide with ⟨level, doubled⟩ | ⟨below, rfl⟩
  · simp only [if_pos level, doubled, parting]
  · simp only [if_neg (Nat.ne_of_lt below), if_pos below, parting]

theorem hashAddFuel_leaf [DecidableEq Data] {callbacks : Callbacks Key} {table : Table Key Data}
    {key : Key} (leaf : ∀ parted, ¬ Recurses callbacks key parted table) (fuel other : Nat)
    (data : Data) :
    hashAddFuel callbacks (fuel + 1) table key data =
      hashAddFuel callbacks (other + 1) table key data := by
  rw [hashAddFuel, hashAddFuel]
  simp only
  repeat' split
  all_goals first
    | rfl
    | skip
  · next blockIdx inDirectory _ _ inBlocks _ missed full level _ doubled grown _ parted parting =>
    obtain ⟨-, rfl⟩ := getBucket_eq_some.mp inBlocks
    exact absurd ⟨blockIdx, doubled, ⟨inDirectory, inBlocks, missed⟩, full, .inl ⟨level, grown⟩,
      parting⟩ (leaf parted)
  · next blockIdx inDirectory _ _ inBlocks _ missed full _ shallow _ parted parting =>
    obtain ⟨-, rfl⟩ := getBucket_eq_some.mp inBlocks
    exact absurd ⟨blockIdx, table, ⟨inDirectory, inBlocks, missed⟩, full, .inr ⟨shallow, rfl⟩,
      parting⟩ (leaf parted)

theorem recurses_terminates (callbacks : Callbacks Key) (key : Key) (table : Table Key Data) :
    Acc (Recurses callbacks key) table := by
  let room : Table Key Data → Nat := fun table =>
    hashMemBlockNum * hashBucketPerBlock - table.nBucket
  refine Subrelation.accessible (fun {parted table} recurses => ?_) ((measure room).wf.apply table)
  obtain ⟨blockIdx, widened, -, -, wide, parting⟩ := recurses
  obtain ⟨more, space⟩ := partitionBucket_nBucket parting
  have same : widened.nBucket = table.nBucket := by
    rcases wide with ⟨-, doubled⟩ | ⟨-, rfl⟩
    · rw [← doubleTable_nBucket table, doubled]
    · rfl
  show room parted < room table
  simp only [room]
  omega

/-- The tables that any accepted calls of `hash_add` leave have the shape, and on every
table `hash_add` comes to a call of itself that calls itself no more. -/
theorem hashAdd_shape [DecidableEq Data] {callbacks : Callbacks Key} {initDepth : Nat}
    {start : Table Key Data} (opened : hashOpen callbacks initDepth .sorted = some start) :
    (∀ table, Reach (addStep callbacks) (fun _ _ => True) start table → TableShape table) ∧
    ∀ (table : Table Key Data) (key : Key) (data : Data), Acc (Recurses callbacks key) table ∧
      (∀ parted, Recurses callbacks key parted table → ∀ fuel,
        hashAddFuel callbacks (fuel + 1) table key data =
          hashAddFuel callbacks fuel parted key data) ∧
      ((∀ parted, ¬ Recurses callbacks key parted table) → ∀ fuel other,
        hashAddFuel callbacks (fuel + 1) table key data =
          hashAddFuel callbacks (other + 1) table key data) ∧
      ∀ fuel ≥ hashMaxBucket + 1,
        hashAddFuel callbacks fuel table key data = hashAdd callbacks table key data := by
  constructor
  · intro table reached
    refine WellFormed.shape (reached.invariant WellFormed (hashOpen_formed opened).1 ?_)
    intro table entry after formed _ stepped
    obtain ⟨reply, added, accepted⟩ := hashAdd_of_addStep stepped
    exact hashAddFuel_formed formed added accepted
  · intro table key data
    refine ⟨recurses_terminates callbacks key table, ?_, ?_, ?_⟩
    · exact fun parted recurses fuel => hashAddFuel_recurses recurses fuel data
    · exact fun leaf fuel other => hashAddFuel_leaf leaf fuel other data
    · exact fun fuel enough => hashAddFuel_eq_hashAdd callbacks table key data enough

theorem hashAdd_shape_one_key :
    ∃ start table : Table Nat Nat, hashOpen byteCallbacks 0 .sorted = some start ∧
      hashAdd byteCallbacks start 5 10 = some (table, .success) ∧ TableShape table := by
  have replied : ((hashOpen byteCallbacks 0 .sorted).bind fun start : Table Nat Nat =>
      (hashAdd byteCallbacks start 5 10).map Prod.snd) = some .success := by
    decide +kernel
  obtain ⟨start, opened, replied⟩ := Option.bind_eq_some_iff.mp replied
  obtain ⟨⟨table, reply⟩, added, rfl⟩ := Option.map_eq_some_iff.mp replied
  have stepped : addStep byteCallbacks start (5, 10) = some table := by
    rw [addStep, added]
  exact ⟨start, table, opened, added,
    (hashAdd_shape opened).1 table (Reach.start.step (5, 10) trivial stepped)⟩

end Wisebot.Hash
