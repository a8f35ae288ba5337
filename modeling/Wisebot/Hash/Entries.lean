import Wisebot.Hash.Map

namespace Wisebot.Hash

/-! What holds of the stored pairs whatever the shape of the directory, also
after a refused doubling has left the depth one too large. -/

variable {Key Data : Type}

def Entry (table : Table Key Data) (key : Key) (data : Data) : Prop :=
  ∃ blockIdx, ∃ slot ∈ (table.bucket blockIdx).slots,
    slot.key = key ∧ slot.data = data

structure AllSorted (table : Table Key Data) : Prop where
  flag : table.sorted = .sorted
  buckets : ∀ blockIdx, (table.bucket blockIdx).sorted = .sorted

theorem hashOpen_allSorted {callbacks : Callbacks Key} {initDepth : Nat}
    {table : Table Key Data}
    (opened : hashOpen callbacks initDepth .sorted = some table) :
    AllSorted table ∧ ∀ key data, ¬ Entry table key data := by
  unfold hashOpen at opened
  simp only at opened
  split at opened
  case isTrue => cases opened
  split at opened
  case isTrue => cases opened
  split at opened
  case isFalse => cases opened
  cases opened
  refine ⟨⟨rfl, fun _ => rfl⟩, ?_⟩
  rintro key data ⟨blockIdx, slot, member, _⟩
  cases member

theorem doubleTable_bucket (table : Table Key Data) :
    (doubleTable table).1.bucket = table.bucket ∧
      (doubleTable table).1.sorted = table.sorted := by
  simp only [doubleTable]
  split <;> exact ⟨rfl, rfl⟩

theorem Widened.bucket {table widened : Table Key Data} {blockIdx : Nat}
    (wide : Widened table blockIdx widened) :
    widened.bucket = table.bucket ∧ widened.sorted = table.sorted := by
  rcases wide with ⟨_, doubled⟩ | ⟨_, rfl⟩
  · have same := doubleTable_bucket table
    rw [doubled] at same
    exact same
  · exact ⟨rfl, rfl⟩

theorem AllSorted.of_bucket {table other : Table Key Data} (sorted : AllSorted table)
    (same : other.bucket = table.bucket ∧ other.sorted = table.sorted) :
    AllSorted other := by
  refine ⟨same.2.trans sorted.flag, ?_⟩
  rw [same.1]
  exact sorted.buckets

theorem Entry.of_bucket {table other : Table Key Data} {key : Key} {data : Data}
    (entry : Entry other key data) (same : other.bucket = table.bucket) :
    Entry table key data := by
  unfold Entry at entry ⊢
  rwa [same] at entry

theorem AllSorted.setBucket {table : Table Key Data} (sorted : AllSorted table)
    (blockIdx : Nat) (bucket : Bucket Key Data) (flag : bucket.sorted = .sorted) :
    AllSorted (table.setBucket blockIdx bucket) := by
  refine ⟨sorted.flag, fun other => ?_⟩
  simp only [Table.setBucket, Function.update_apply]
  split
  · exact flag
  · exact sorted.buckets other

theorem Entry.of_setBucket {table : Table Key Data} {blockIdx : Nat}
    {bucket : Bucket Key Data} {key : Key} {data : Data}
    (entry : Entry (table.setBucket blockIdx bucket) key data) :
    Entry table key data ∨
      ∃ slot ∈ bucket.slots, slot.key = key ∧ slot.data = data := by
  obtain ⟨other, slot, member, same⟩ := entry
  simp only [Table.setBucket, Function.update_apply] at member
  split at member
  · exact .inr ⟨slot, member, same⟩
  · exact .inl ⟨other, slot, member, same⟩

theorem splitBucket_entries {table : Table Key Data} (sorted : AllSorted table)
    (srcIdx : Nat) :
    AllSorted (splitBucket table srcIdx (table.bucket srcIdx)) ∧
      ∀ key data, Entry (splitBucket table srcIdx (table.bucket srcIdx)) key data →
        Entry table key data := by
  refine ⟨⟨sorted.flag, fun other => ?_⟩, ?_⟩
  · simp only [splitBucket, Function.update_apply]
    split
    · exact sorted.buckets srcIdx
    · split
      · exact sorted.flag
      · exact sorted.buckets other
  · rintro key data ⟨other, slot, member, same⟩
    simp only [splitBucket, Function.update_apply] at member
    split at member
    · exact ⟨srcIdx, slot, List.mem_of_mem_take member, same⟩
    · split at member
      · exact ⟨srcIdx, slot, List.mem_of_mem_drop member, same⟩
      · exact ⟨other, slot, member, same⟩

/-! `hash_add` stores at most the pair it was given. -/

theorem storeAt_entries {table : Table Key Data} (sorted : AllSorted table)
    (blockIdx position : Nat) (slot : Slot Key Data) :
    AllSorted (storeAt table blockIdx position slot) ∧
      ∀ key data, Entry (storeAt table blockIdx position slot) key data →
        Entry table key data ∨ key = slot.key ∧ data = slot.data := by
  have replaced := sorted.setBucket blockIdx
    { table.bucket blockIdx with
      slots := (table.bucket blockIdx).slots.take position ++
        slot :: (table.bucket blockIdx).slots.drop position }
    (sorted.buckets blockIdx)
  refine ⟨⟨replaced.flag, replaced.buckets⟩, ?_⟩
  intro key data entry
  rcases Entry.of_setBucket entry with older | ⟨other, member, rfl, rfl⟩
  · exact .inl older
  · have perm := insert_perm (table.bucket blockIdx).slots position slot
    rcases List.mem_cons.mp (perm.mem_iff.mp member) with rfl | inside
    · exact .inr ⟨rfl, rfl⟩
    · exact .inl ⟨blockIdx, other, inside, rfl, rfl⟩

theorem hashAddFuel_entries [DecidableEq Data] {callbacks : Callbacks Key}
    {fuel : Nat} {table after : Table Key Data} {key : Key} {data : Data}
    {reply : AddResult Data} (sorted : AllSorted table)
    (result : hashAddFuel callbacks fuel table key data = some (after, reply)) :
    AllSorted after ∧ ∀ key' data', Entry after key' data' →
      Entry table key' data' ∨ reply = .success ∧ key' = key ∧ data' = data := by
  induction fuel generalizing table with
  | zero => cases result
  | succ fuel induction =>
    cases hashAddFuel_cases result with
    | noBucket => exact ⟨sorted, fun _ _ entry => .inl entry⟩
    | @present blockIdx found slot probe stored same =>
      refine ⟨sorted.setBucket blockIdx _ (sorted.buckets blockIdx), ?_⟩
      intro key' data' entry
      rcases Entry.of_setBucket entry with older | ⟨other, member, rfl, rfl⟩
      · exact .inl older
      · rcases List.mem_or_eq_of_mem_set member with inside | rfl
        · exact .inl ⟨blockIdx, other, inside, rfl, rfl⟩
        · exact .inl ⟨blockIdx, slot, List.mem_of_getElem? stored, rfl, rfl⟩
    | collision => exact ⟨sorted, fun _ _ entry => .inl entry⟩
    | undoubled probe full refused =>
      have same := doubleTable_bucket table
      rw [refused] at same
      exact ⟨sorted.of_bucket same, fun _ _ entry =>
        .inl (entry.of_bucket same.1)⟩
    | unsplit probe full wide refused =>
      obtain ⟨nMemBlock, rfl⟩ := partitionBucket_refused refused
      have same := wide.bucket
      exact ⟨sorted.of_bucket same, fun _ _ entry =>
        .inl (entry.of_bucket same.1)⟩
    | @split blockIdx widened parted _ _ probe full wide parting again =>
      obtain ⟨_, _, _, nMemBlock, rfl⟩ := partitionBucket_split parting
      have same := wide.bucket
      have wideSorted : AllSorted { widened with nMemBlock := nMemBlock } :=
        sorted.of_bucket same
      obtain ⟨splitSorted, splitEntries⟩ := splitBucket_entries wideSorted
        (widened.directory (getPrefix (callbacks.hashFunc key) table.depth))
      obtain ⟨afterSorted, afterEntries⟩ := induction splitSorted again
      refine ⟨afterSorted, fun key' data' entry => ?_⟩
      rcases afterEntries key' data' entry with older | added
      · exact .inl ((splitEntries key' data' older).of_bucket same.1)
      · exact .inr added
    | tooDeep => exact ⟨sorted, fun _ _ entry => .inl entry⟩
    | tooMany => exact ⟨sorted, fun _ _ entry => .inl entry⟩
    | insertSorted probe room flag =>
      obtain ⟨storedSorted, entries⟩ := storeAt_entries sorted _ _ _
      refine ⟨storedSorted, fun key' data' entry => ?_⟩
      rcases entries key' data' entry with older | ⟨sameKey, sameData⟩
      · exact .inl older
      · exact .inr ⟨rfl, sameKey, sameData⟩
    | insertUnsorted probe room flag =>
      rw [sorted.buckets] at flag
      cases flag
    | sorting probe flag =>
      rw [sorted.buckets] at flag
      cases flag

theorem hashSearch_entry {callbacks : Callbacks Key} {table : Table Key Data}
    {key : Key} {data : Data} (sorted : AllSorted table)
    (result : hashSearch callbacks table key = some (some data)) :
    ∃ stored, Entry table stored data ∧ callbacks.keyEq stored key = true := by
  unfold hashSearch at result
  simp only at result
  split at result
  case h_1 => cases result
  case h_2 blockIdx _ =>
    split at result
    case h_1 => cases result
    case h_2 bucket inBlocks =>
      obtain ⟨-, rfl⟩ := getBucket_eq_some.mp inBlocks
      split at result
      case h_1 => cases result
      case h_2 found hit =>
        obtain ⟨slot, stored, equal⟩ := findSlot_some (sorted.buckets blockIdx) hit
        rw [stored] at result
        cases result
        exact ⟨slot.key, ⟨blockIdx, slot, List.mem_of_getElem? stored, rfl, rfl⟩,
          equal⟩

end Wisebot.Hash
