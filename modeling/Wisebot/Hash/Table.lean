import Mathlib.Data.Nat.Basic
import Mathlib.Logic.Function.Basic
import Mathlib.Data.Fin.VecNotation
import Mathlib.Data.Fintype.Basic
import Mathlib.Tactic.IntervalCases

namespace Wisebot.Hash

/-! Four-byte hash keys (`common/hash.c`): the prefix that selects a directory
entry and the byte order that sorts a bucket, both as functions of the
big-endian value. -/

/-- `uint8_t hashkey[HASH_HASHKEY_LEN]`. -/
abbrev HashKey := Fin 4 → UInt8

namespace HashKey

def byte (key : HashKey) (index : Nat) : Nat :=
  (key (Fin.ofNat 4 index)).toNat

def value (key : HashKey) : Nat :=
  ((key.byte 0 * 256 + key.byte 1) * 256 + key.byte 2) * 256 + key.byte 3

theorem byte_lt (key : HashKey) (index : Nat) : key.byte index < 256 :=
  UInt8.toNat_lt _

theorem value_lt (key : HashKey) : key.value < 2 ^ 32 := by
  have first := key.byte_lt 0
  have second := key.byte_lt 1
  have third := key.byte_lt 2
  have fourth := key.byte_lt 3
  unfold value
  omega

theorem value_inj {left right : HashKey} (equal : left.value = right.value) :
    left = right := by
  have bytes : left.byte 0 = right.byte 0 ∧ left.byte 1 = right.byte 1 ∧
      left.byte 2 = right.byte 2 ∧ left.byte 3 = right.byte 3 := by
    have := left.byte_lt 0
    have := left.byte_lt 1
    have := left.byte_lt 2
    have := left.byte_lt 3
    have := right.byte_lt 0
    have := right.byte_lt 1
    have := right.byte_lt 2
    have := right.byte_lt 3
    unfold value at equal
    omega
  obtain ⟨first, second, third, fourth⟩ := bytes
  funext index
  apply UInt8.toNat_inj.mp
  match index with
  | 0 => exact first
  | 1 => exact second
  | 2 => exact third
  | 3 => exact fourth

end HashKey

/-- The first `depth` bits of a key. -/
def getPrefix (key : HashKey) (depth : Nat) : Nat :=
  let divisor := depth / 8
  let remainder := depth % 8
  let whole := (List.range divisor).foldl
    (fun acc index => acc * 2 ^ 8 + key.byte index) 0
  if remainder ≠ 0 then
    whole * 2 ^ remainder + key.byte divisor / 2 ^ (8 - remainder)
  else whole

/-- `memcmp` on the four bytes. -/
def hashkeycmp (left right : HashKey) : Ordering :=
  (compare (left.byte 0) (right.byte 0)).then
    ((compare (left.byte 1) (right.byte 1)).then
      ((compare (left.byte 2) (right.byte 2)).then
        (compare (left.byte 3) (right.byte 3))))

theorem getPrefix_eq (key : HashKey) {depth : Nat} (bound : depth ≤ 32) :
    getPrefix key depth = key.value / 2 ^ (32 - depth) := by
  have := key.byte_lt 0
  have := key.byte_lt 1
  have := key.byte_lt 2
  have := key.byte_lt 3
  interval_cases depth <;>
    simp [getPrefix, HashKey.value, List.range_succ] <;> omega

private theorem compare_scaled {high low high' low' : Nat}
    (lowBound : low < 256) (lowBound' : low' < 256) :
    compare (high * 256 + low) (high' * 256 + low') =
      (compare high high').then (compare low low') := by
  rcases Nat.lt_trichotomy high high' with below | equal | above
  · rw [compare_lt_iff_lt.mpr below, compare_lt_iff_lt.mpr (by omega)]
    rfl
  · subst high'
    rw [compare_eq_iff_eq.mpr (rfl : high = high)]
    simp only [Ordering.then]
    rcases Nat.lt_trichotomy low low' with below | equal | above
    · rw [compare_lt_iff_lt.mpr below, compare_lt_iff_lt.mpr (by omega)]
    · subst low'
      rw [compare_eq_iff_eq.mpr rfl, compare_eq_iff_eq.mpr rfl]
    · rw [compare_gt_iff_gt.mpr above, compare_gt_iff_gt.mpr (by omega)]
  · rw [compare_gt_iff_gt.mpr above, compare_gt_iff_gt.mpr (by omega)]
    rfl

theorem hashkeycmp_eq (left right : HashKey) :
    hashkeycmp left right = compare left.value right.value := by
  unfold HashKey.value hashkeycmp
  rw [compare_scaled (left.byte_lt 3) (right.byte_lt 3),
    compare_scaled (left.byte_lt 2) (right.byte_lt 2),
    compare_scaled (left.byte_lt 1) (right.byte_lt 1)]
  simp only [Ordering.then_assoc]

theorem hashkeycmp_lt {left right : HashKey} :
    hashkeycmp left right = .lt ↔ left.value < right.value := by
  rw [hashkeycmp_eq, compare_lt_iff_lt]

theorem hashkeycmp_gt {left right : HashKey} :
    hashkeycmp left right = .gt ↔ right.value < left.value := by
  rw [hashkeycmp_eq, compare_gt_iff_gt]

theorem hashkeycmp_self_iff {left right : HashKey} :
    hashkeycmp left right = .eq ↔ left = right := by
  rw [hashkeycmp_eq, compare_eq_iff_eq]
  exact ⟨HashKey.value_inj, fun equal => equal ▸ rfl⟩

/-! The extendible hash of `common/hash.c`. A `none` result stands for an
access the C program has no defined behaviour for: a directory index beyond
`arr_of_mem_block_idx`, a block beyond `mem_block`, a null bucket. -/

def hashSlotNum : Nat := 128

def hashMaxDepth : Nat := 22

def hashMaxBucket : Nat := 2 ^ hashMaxDepth

def hashBucketPerBlock : Nat := 10000

def hashMemBlockNum : Nat := hashMaxBucket / hashBucketPerBlock

/-- `hslot_t`; `deleted` is `flag == HASH_DELETED`. -/
structure Slot (Key Data : Type) where
  key : Key
  hashkey : HashKey
  data : Data
  deleted : Bool

inductive SortFlag where
  | sorted
  | unsorted
  | sorting
  deriving DecidableEq

/-- `bucket_t`, with the first `nSlotCnt` slots. -/
structure Bucket (Key Data : Type) where
  slots : List (Slot Key Data)
  depth : Nat
  sorted : SortFlag

/-- `hash_shareddata_t` and the buckets of the mapped blocks. -/
structure Table (Key Data : Type) where
  directory : Nat → Nat
  bucket : Nat → Bucket Key Data
  depth : Nat
  sorted : SortFlag
  nSlot : Nat
  nMemBlock : Nat
  nBucket : Nat

/-- The function pointers of `hash_t`: `keyEq` is `keycmp_func(..) == 0`,
`allocData` tells whether a block can be mapped. -/
structure Callbacks (Key : Type) where
  hashFunc : Key → HashKey
  keyEq : Key → Key → Bool
  allocData : Nat → Bool

inductive AddResult (Data : Type) where
  | success
  | collision (stored : Data)
  | overflow
  | fail
  deriving DecidableEq

variable {Key Data : Type}

def Table.directoryAt (table : Table Key Data) (bucketIdx : Nat) :
    Option Nat :=
  if bucketIdx < hashMaxBucket then some (table.directory bucketIdx)
  else none

def Table.getBucket (table : Table Key Data) (blockIdx : Nat) :
    Option (Bucket Key Data) :=
  if blockIdx / hashBucketPerBlock < hashMemBlockNum then
    some (table.bucket blockIdx)
  else none

def Table.setBucket (table : Table Key Data) (blockIdx : Nat)
    (bucket : Bucket Key Data) : Table Key Data :=
  { table with bucket := Function.update table.bucket blockIdx bucket }

/-- `hash_open` on an empty `shared`. -/
def hashOpen (callbacks : Callbacks Key) (initDepth : Nat)
    (initSortflag : SortFlag) : Option (Table Key Data) :=
  let ninitBucket := 2 ^ initDepth
  let nMemBlock := ninitBucket / hashBucketPerBlock + 1
  if hashMaxDepth < initDepth then none
  else if hashMemBlockNum < nMemBlock then none
  else if (List.range nMemBlock).all callbacks.allocData then
    some {
      directory := fun index => if index < ninitBucket then index else 0
      bucket := fun _ => { slots := [], depth := initDepth, sorted := initSortflag }
      depth := initDepth
      sorted := initSortflag
      nSlot := 0
      nMemBlock := nMemBlock
      nBucket := ninitBucket }
  else none

def hashkeyAt (slots : List (Slot Key Data)) (index : Nat) : HashKey :=
  match slots[index]? with
  | some slot => slot.hashkey
  | none => fun _ => 0

/-- The binary search of `findSlot`: the position it stops at, or `none`
where it returns at once. -/
def findMid (slots : List (Slot Key Data)) (hashkey : HashKey) :
    (fuel startPos finPos midPos : Nat) → Option Nat
  | 0, _, _, midPos => some midPos
  | fuel + 1, startPos, finPos, midPos =>
    if startPos ≤ finPos then
      let middle := (startPos + finPos) / 2
      match hashkeycmp (hashkeyAt slots middle) hashkey with
      | .eq => some middle
      | .lt =>
        if middle + 1 = middle ∧ middle = finPos then none
        else findMid slots hashkey fuel (middle + 1) finPos middle
      | .gt =>
        if startPos = middle ∧ middle = middle then none
        else findMid slots hashkey fuel startPos middle middle
    else some midPos

/-- The `do .. while` over equal hash keys, from the found slot on. -/
def scanForward (keyEq : Key → Key → Bool) (key : Key) (hashkey : HashKey) :
    List (Slot Key Data) → Nat → Option Nat
  | [], _ => none
  | slot :: rest, fPos =>
    if keyEq slot.key key then some fPos
    else match rest with
      | [] => none
      | next :: _ =>
        if next.hashkey = hashkey then
          scanForward keyEq key hashkey rest (fPos + 1)
        else none

/-- The `while` over equal hash keys, from the slot before it down. -/
def scanBackward (keyEq : Key → Key → Bool) (key : Key) (hashkey : HashKey) :
    List (Slot Key Data) → Nat → Option Nat
  | [], _ => none
  | slot :: rest, bPos =>
    if slot.hashkey = hashkey then
      if keyEq slot.key key then some bPos
      else scanBackward keyEq key hashkey rest (bPos - 1)
    else none

def findSlot (callbacks : Callbacks Key) (bucket : Bucket Key Data)
    (key : Key) (hashkey : HashKey) : Option Nat :=
  let slots := bucket.slots
  if slots.length = 0 then none
  else match bucket.sorted with
    | .sorted =>
      match findMid slots hashkey slots.length 0 (slots.length - 1) 100 with
      | none => none
      | some midPos =>
        match scanForward callbacks.keyEq key hashkey
            (slots.drop midPos) midPos with
        | some found => some found
        | none => scanBackward callbacks.keyEq key hashkey
            (slots.take midPos).reverse (midPos - 1)
    | .unsorted =>
      let found := slots.findIdx fun slot => slot.hashkey = hashkey
      if found < slots.length then some found else none
    | .sorting => none

def insertLoop (slots : List (Slot Key Data)) (hashkey : HashKey) :
    (fuel start finish : Nat) → Nat
  | 0, start, _ => start
  | fuel + 1, start, finish =>
    if start < finish then
      let middle := (start + finish) / 2
      if hashkeycmp (hashkeyAt slots middle) hashkey = .gt then
        insertLoop slots hashkey fuel start middle
      else insertLoop slots hashkey fuel (middle + 1) finish
    else start

/-- Where `hash_add` makes room in a sorted bucket. -/
def insertPos (slots : List (Slot Key Data)) (hashkey : HashKey) : Nat :=
  if slots.length = 0 then 0
  else
    let start := insertLoop slots hashkey slots.length 0 (slots.length - 1)
    if hashkeycmp (hashkeyAt slots start) hashkey = .lt then start + 1
    else start

/-- `arr[i] = arr[i/2]` for `i` counting down. -/
def spreadDown : Nat → (Nat → Nat) → Nat → Nat
  | 0, directory => directory
  | index + 1, directory =>
    spreadDown index
      (Function.update directory index (directory (index / 2)))

def doubleTable (table : Table Key Data) : Table Key Data × Bool :=
  let depth := table.depth + 1
  if 4 * 8 < depth ∨ hashMaxDepth < depth then
    ({ table with depth := depth }, false)
  else
    ({ table with
        depth := depth
        directory := spreadDown (2 ^ depth) table.directory }, true)

/-- The state `partitionBucket` leaves when nothing refuses the split. -/
def splitBucket (table : Table Key Data) (srcIdx : Nat)
    (src : Bucket Key Data) : Table Key Data :=
  let split := src.slots.findIdx fun slot =>
    getPrefix slot.hashkey (src.depth + 1) % 2 = 1
  let newbucket : Bucket Key Data := {
    slots := src.slots.drop split
    depth := src.depth + 1
    sorted := table.sorted }
  let srcbucket : Bucket Key Data :=
    { src with slots := src.slots.take split, depth := src.depth + 1 }
  let cdepth := table.depth - src.depth
  { table with
    bucket := Function.update
      (Function.update table.bucket table.nBucket newbucket) srcIdx srcbucket
    nBucket := table.nBucket + 1
    directory := fun index =>
      if index < 2 ^ table.depth ∧ table.directory index = srcIdx ∧
          index / 2 ^ (cdepth - 1) % 2 = 1 then
        table.nBucket
      else table.directory index }

def partitionBucket (callbacks : Callbacks Key) (table : Table Key Data)
    (bucketIdx : Nat) : Option (Table Key Data × Bool) :=
  if table.sorted ≠ .sorted then some (table, false)
  else match table.directoryAt bucketIdx with
    | none => none
    | some srcIdx =>
      match table.getBucket srcIdx with
      | none => none
      | some src =>
        if table.depth ≤ src.depth then some (table, false)
        else
          let full := table.nBucket % hashBucketPerBlock = 0
          if full ∧ ¬ callbacks.allocData table.nMemBlock then
            some (table, false)
          else if full ∧ hashMemBlockNum ≤ table.nMemBlock then none
          else
            let grown := { table with
              nMemBlock :=
                if full then table.nMemBlock + 1 else table.nMemBlock }
            match grown.getBucket grown.nBucket with
            | none => some (grown, false)
            | some _ =>
              if hashMaxDepth < table.depth then none
              else some (splitBucket grown srcIdx src, true)

/-- `hash_add`; `fuel` bounds the depth of its recursion. -/
def hashAddFuel [DecidableEq Data] (callbacks : Callbacks Key) :
    Nat → Table Key Data → Key → Data →
      Option (Table Key Data × AddResult Data)
  | 0, _, _, _ => none
  | fuel + 1, table, key, data =>
    let hashkey := callbacks.hashFunc key
    let bucketIdx := getPrefix hashkey table.depth
    match table.directoryAt bucketIdx with
    | none => none
    | some blockIdx =>
    match table.getBucket blockIdx with
    | none => some (table, .fail)
    | some bucket =>
    match findSlot callbacks bucket key hashkey with
    | some found =>
      match bucket.slots[found]? with
      | none => none
      | some slot =>
        if slot.data = data then
          some (table.setBucket blockIdx { bucket with
            slots := bucket.slots.set found
              { slot with deleted := false } }, .success)
        else some (table, .collision slot.data)
    | none =>
      if bucket.slots.length = hashSlotNum then
        if bucket.depth = table.depth then
          match doubleTable table with
          | (doubled, false) => some (doubled, .overflow)
          | (doubled, true) =>
            match partitionBucket callbacks doubled bucketIdx with
            | none => none
            | some (parted, false) => some (parted, .overflow)
            | some (parted, true) =>
              hashAddFuel callbacks fuel parted key data
        else if bucket.depth < table.depth then
          match partitionBucket callbacks table bucketIdx with
          | none => none
          | some (parted, false) => some (parted, .overflow)
          | some (parted, true) =>
            hashAddFuel callbacks fuel parted key data
        else some (table, .fail)
      else if hashSlotNum < bucket.slots.length then
        some (table, .overflow)
      else
        let slot : Slot Key Data :=
          { key := key, hashkey := hashkey, data := data, deleted := false }
        let stored := fun position =>
          ({ table.setBucket blockIdx { bucket with
                slots := bucket.slots.take position ++
                  slot :: bucket.slots.drop position } with
              nSlot := table.nSlot + 1 }, AddResult.success)
        match bucket.sorted with
        | .sorted => some (stored (insertPos bucket.slots hashkey))
        | .unsorted => some (stored bucket.slots.length)
        | .sorting => some (table, .fail)

/-- Each recursive call of `hash_add` follows a split, and there are fewer
than `hashMaxBucket` buckets. -/
def hashAdd [DecidableEq Data] (callbacks : Callbacks Key)
    (table : Table Key Data) (key : Key) (data : Data) :
    Option (Table Key Data × AddResult Data) :=
  hashAddFuel callbacks (hashMaxBucket + 1) table key data

def hashUpdate (callbacks : Callbacks Key) (table : Table Key Data)
    (key : Key) (data : Data) : Option (Table Key Data × Bool) :=
  let hashkey := callbacks.hashFunc key
  match table.directoryAt (getPrefix hashkey table.depth) with
  | none => none
  | some blockIdx =>
  match table.getBucket blockIdx with
  | none => none
  | some bucket =>
  match findSlot callbacks bucket key hashkey with
  | none => some (table, false)
  | some found =>
  match bucket.slots[found]? with
  | none => none
  | some slot =>
    some (table.setBucket blockIdx { bucket with
      slots := bucket.slots.set found { slot with data := data } }, true)

/-- The stored data, `some none` where `hash_search` returns `FAIL`. -/
def hashSearch (callbacks : Callbacks Key) (table : Table Key Data)
    (key : Key) : Option (Option Data) :=
  let hashkey := callbacks.hashFunc key
  match table.directoryAt (getPrefix hashkey table.depth) with
  | none => none
  | some blockIdx =>
  match table.getBucket blockIdx with
  | none => none
  | some bucket =>
  match findSlot callbacks bucket key hashkey with
  | none => some none
  | some found =>
  match bucket.slots[found]? with
  | none => none
  | some slot => some (some slot.data)

end Wisebot.Hash
