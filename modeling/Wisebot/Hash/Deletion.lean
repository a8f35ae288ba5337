import Wisebot.Hash.Shape

namespace Wisebot.Hash

/-! `hash_delete`: a slot is flagged at once and taken out later, when the list of flagged
slots is full. -/

def hashDeletelistSize : Nat := 7

/-- The table and the first `nDeleted` rows of `deletelist`: a directory index and a slot
number each. -/
structure Shared (Key Data : Type) where
  table : Table Key Data
  deletelist : List (Nat × Nat)

variable {Key Data : Type}

def deleteSlot (table : Table Key Data) (row : Nat × Nat) : Option (Table Key Data) :=
  match table.directoryAt row.1 with
  | none => none
  | some blockIdx =>
  match table.getBucket blockIdx with
  | none => none
  | some bucket =>
    if bucket.slots.length ≤ row.2 then some table
    else some (table.setBucket blockIdx
      { bucket with slots := bucket.slots.eraseIdx row.2 })

/-- The loop over `deletelist`. -/
def deleteSlots : Table Key Data → List (Nat × Nat) → Option (Table Key Data)
  | table, [] => some table
  | table, row :: rest =>
    match deleteSlot table row with
    | none => none
    | some next => deleteSlots next rest

def hashDelete (callbacks : Callbacks Key) (shared : Shared Key Data) (key : Key) :
    Option (Shared Key Data × Bool) :=
  let table := shared.table
  let hashkey := callbacks.hashFunc key
  let bucketIdx := getPrefix hashkey table.depth
  match table.directoryAt bucketIdx with
  | none => none
  | some blockIdx =>
  match table.getBucket blockIdx with
  | none => none
  | some bucket =>
  match findSlot callbacks bucket key hashkey with
  | none => some (shared, false)
  | some slotnum =>
  match bucket.slots[slotnum]? with
  | none => none
  | some slot =>
    let flagged := table.setBucket blockIdx
      { bucket with slots := bucket.slots.set slotnum { slot with deleted := true } }
    if hashDeletelistSize ≤ shared.deletelist.length then
      match deleteSlots flagged (shared.deletelist.take hashDeletelistSize) with
      | none => none
      | some purged =>
        some ({ table := purged, deletelist := [(bucketIdx, slotnum)] }, true)
    else
      some ({ table := flagged
              deletelist := shared.deletelist ++ [(bucketIdx, slotnum)] }, true)

/-! ### Tables without their flags

No operation reads a flag, so each does on a table what it does on the table in which all
flags are cleared. -/

def Slot.unflagged (slot : Slot Key Data) : Slot Key Data := { slot with deleted := false }

def Bucket.unflagged (bucket : Bucket Key Data) : Bucket Key Data :=
  { bucket with slots := bucket.slots.map Slot.unflagged }

def Table.unflagged (table : Table Key Data) : Table Key Data :=
  { table with bucket := fun blockIdx => (table.bucket blockIdx).unflagged }

@[simp] theorem Table.unflagged_depth (table : Table Key Data) :
    table.unflagged.depth = table.depth := rfl

@[simp] theorem Table.unflagged_directoryAt (table : Table Key Data) (bucketIdx : Nat) :
    table.unflagged.directoryAt bucketIdx = table.directoryAt bucketIdx := rfl

@[simp] theorem Table.unflagged_getBucket (table : Table Key Data) (blockIdx : Nat) :
    table.unflagged.getBucket blockIdx = (table.getBucket blockIdx).map Bucket.unflagged := by
  simp only [Table.getBucket, Table.unflagged]
  split <;> rfl

@[simp] theorem Bucket.unflagged_length (bucket : Bucket Key Data) :
    bucket.unflagged.slots.length = bucket.slots.length := by
  simp [Bucket.unflagged]

@[simp] theorem Bucket.unflagged_at (bucket : Bucket Key Data) (index : Nat) :
    bucket.unflagged.slots[index]? = bucket.slots[index]?.map Slot.unflagged := by
  simp [Bucket.unflagged]

theorem Table.unflagged_setBucket (table : Table Key Data) (blockIdx : Nat)
    (bucket : Bucket Key Data) :
    (table.setBucket blockIdx bucket).unflagged =
      table.unflagged.setBucket blockIdx bucket.unflagged := by
  simp only [Table.unflagged, Table.setBucket]
  congr 1
  funext other
  by_cases same : other = blockIdx
  · subst same
    simp
  · simp [Function.update_of_ne same]

@[simp] theorem hashkeyAt_unflagged (slots : List (Slot Key Data)) (index : Nat) :
    hashkeyAt (slots.map Slot.unflagged) index = hashkeyAt slots index := by
  simp only [hashkeyAt, List.getElem?_map]
  cases slots[index]? <;> rfl

theorem findMid_unflagged (slots : List (Slot Key Data)) (hashkey : HashKey)
    (fuel startPos finPos midPos : Nat) :
    findMid (slots.map Slot.unflagged) hashkey fuel startPos finPos midPos =
      findMid slots hashkey fuel startPos finPos midPos := by
  induction fuel generalizing startPos finPos midPos with
  | zero => rfl
  | succ fuel induction => simp only [findMid, hashkeyAt_unflagged, induction]

theorem scanForward_unflagged (keyEq : Key → Key → Bool) (key : Key) (hashkey : HashKey)
    (slots : List (Slot Key Data)) (fPos : Nat) :
    scanForward keyEq key hashkey (slots.map Slot.unflagged) fPos =
      scanForward keyEq key hashkey slots fPos := by
  induction slots generalizing fPos with
  | nil => rfl
  | cons slot rest induction =>
    cases rest with
    | nil => rfl
    | cons next others =>
      rw [List.map_cons, List.map_cons, scanForward, scanForward, ← List.map_cons, induction]
      rfl

theorem scanBackward_unflagged (keyEq : Key → Key → Bool) (key : Key) (hashkey : HashKey)
    (slots : List (Slot Key Data)) (bPos : Nat) :
    scanBackward keyEq key hashkey (slots.map Slot.unflagged) bPos =
      scanBackward keyEq key hashkey slots bPos := by
  induction slots generalizing bPos with
  | nil => rfl
  | cons slot rest induction =>
    simp only [List.map_cons, scanBackward, induction]
    rfl

theorem findSlot_unflagged (callbacks : Callbacks Key) (bucket : Bucket Key Data) (key : Key)
    (hashkey : HashKey) :
    findSlot callbacks bucket.unflagged key hashkey = findSlot callbacks bucket key hashkey := by
  simp only [findSlot, Bucket.unflagged, List.length_map, findMid_unflagged, ← List.map_drop,
    ← List.map_take, ← List.map_reverse, scanForward_unflagged, scanBackward_unflagged,
    List.findIdx_map]
  rfl

theorem insertPos_unflagged (slots : List (Slot Key Data)) (hashkey : HashKey) :
    insertPos (slots.map Slot.unflagged) hashkey = insertPos slots hashkey := by
  have loop : ∀ fuel start finish,
      insertLoop (slots.map Slot.unflagged) hashkey fuel start finish =
        insertLoop slots hashkey fuel start finish := by
    intro fuel
    induction fuel with
    | zero => exact fun _ _ => rfl
    | succ fuel induction =>
      intro start finish
      simp only [insertLoop, hashkeyAt_unflagged, induction]
  simp only [insertPos, List.length_map, loop, hashkeyAt_unflagged]

theorem doubleTable_unflagged (table : Table Key Data) :
    doubleTable table.unflagged =
      ((doubleTable table).1.unflagged, (doubleTable table).2) := by
  rw [doubleTable, doubleTable]
  by_cases deep : 4 * 8 < table.depth + 1 ∨ hashMaxDepth < table.depth + 1
  · rw [if_pos deep]
    exact if_pos deep
  · rw [if_neg deep]
    exact if_neg deep

theorem splitBucket_unflagged (table : Table Key Data) (srcIdx : Nat)
    (src : Bucket Key Data) :
    splitBucket table.unflagged srcIdx src.unflagged =
      (splitBucket table srcIdx src).unflagged := by
  simp only [splitBucket, Table.unflagged, Bucket.unflagged, List.findIdx_map,
    Function.comp_def, Slot.unflagged, ← List.map_drop, ← List.map_take]
  congr 1
  funext other
  by_cases isSource : other = srcIdx
  · subst isSource
    rw [Function.update_self, Function.update_self]
    rfl
  · by_cases isNew : other = table.nBucket
    · subst isNew
      rw [Function.update_of_ne isSource, Function.update_of_ne isSource, Function.update_self,
        Function.update_self]
      rfl
    · simp only [Function.update_of_ne isSource, Function.update_of_ne isNew]

theorem partitionBucket_unflagged (callbacks : Callbacks Key) (table : Table Key Data)
    (bucketIdx : Nat) :
    partitionBucket callbacks table.unflagged bucketIdx =
      (partitionBucket callbacks table bucketIdx).map fun result =>
        (result.1.unflagged, result.2) := by
  rw [partitionBucket, partitionBucket]
  by_cases flag : table.sorted ≠ .sorted
  · rw [if_pos flag]
    exact if_pos flag
  · rw [if_neg flag, if_neg (show ¬ table.unflagged.sorted ≠ .sorted from flag)]
    rw [Table.unflagged_directoryAt]
    cases table.directoryAt bucketIdx with
    | none => rfl
    | some srcIdx =>
      simp only [Table.unflagged_getBucket]
      cases table.getBucket srcIdx with
      | none => rfl
      | some src =>
        simp only [Option.map_some]
        by_cases level : table.depth ≤ src.depth
        · rw [if_pos level]
          exact if_pos level
        · rw [if_neg level]
          refine (if_neg level).trans ?_
          by_cases unmapped : table.nBucket % hashBucketPerBlock = 0 ∧
              ¬ callbacks.allocData table.nMemBlock
          · rw [if_pos unmapped]
            exact if_pos unmapped
          · rw [if_neg unmapped]
            refine (if_neg unmapped).trans ?_
            by_cases many : table.nBucket % hashBucketPerBlock = 0 ∧
                hashMemBlockNum ≤ table.nMemBlock
            · rw [if_pos many]
              exact if_pos many
            · rw [if_neg many]
              refine (if_neg many).trans ?_
              simp only [Table.getBucket]
              by_cases inside : table.nBucket / hashBucketPerBlock < hashMemBlockNum
              · rw [if_pos inside, if_pos (show table.unflagged.nBucket / hashBucketPerBlock <
                  hashMemBlockNum from inside)]
                by_cases deep : hashMaxDepth < table.depth
                · simp only [if_pos deep, Option.map_none]
                  exact if_pos deep
                · simp only [if_neg deep, Option.map_some, ← splitBucket_unflagged]
                  exact if_neg deep
              · rw [if_neg inside, if_neg (show ¬ table.unflagged.nBucket /
                  hashBucketPerBlock < hashMemBlockNum from inside)]
                rfl

theorem stored_unflagged (table : Table Key Data) (blockIdx position : Nat)
    (bucket : Bucket Key Data) (slot : Slot Key Data) (kept : slot.deleted = false) :
    Table.unflagged { table.setBucket blockIdx { bucket with
        slots := bucket.slots.take position ++ slot :: bucket.slots.drop position } with
      nSlot := table.nSlot + 1 } =
    { table.unflagged.setBucket blockIdx { bucket.unflagged with
        slots := bucket.unflagged.slots.take position ++
          slot :: bucket.unflagged.slots.drop position } with
      nSlot := table.nSlot + 1 } := by
  have set := table.unflagged_setBucket blockIdx { bucket with
    slots := bucket.slots.take position ++ slot :: bucket.slots.drop position }
  have clear : slot.unflagged = slot := by
    rw [Slot.unflagged, ← kept]
  simp only [Bucket.unflagged, List.map_append, List.map_take, List.map_cons, List.map_drop,
    clear] at set ⊢
  exact congrArg
    (fun changed => ({ changed with nSlot := table.nSlot + 1 } : Table Key Data)) set

theorem hashAddFuel_unflagged [DecidableEq Data] (callbacks : Callbacks Key) (fuel : Nat)
    (table : Table Key Data) (key : Key) (data : Data) :
    hashAddFuel callbacks fuel table.unflagged key data =
      (hashAddFuel callbacks fuel table key data).map fun result =>
        (result.1.unflagged, result.2) := by
  induction fuel generalizing table with
  | zero => rfl
  | succ fuel induction =>
    rw [hashAddFuel, hashAddFuel]
    simp only [Table.unflagged_depth, Table.unflagged_directoryAt, Table.unflagged_getBucket]
    cases table.directoryAt (getPrefix (callbacks.hashFunc key) table.depth) with
    | none => rfl
    | some blockIdx =>
      simp only
      cases table.getBucket blockIdx with
      | none => rfl
      | some bucket =>
        simp only [Option.map_some, findSlot_unflagged]
        cases findSlot callbacks bucket key (callbacks.hashFunc key) with
        | some found =>
          simp only [Bucket.unflagged_at]
          cases bucket.slots[found]? with
          | none => rfl
          | some slot =>
            simp only [Option.map_some]
            by_cases same : slot.data = data
            · rw [if_pos same]
              refine (if_pos same).trans ?_
              simp only [Option.map_some, Table.unflagged_setBucket, Bucket.unflagged,
                List.map_set]
              rfl
            · rw [if_neg same]
              exact if_neg same
        | none =>
          simp only [Bucket.unflagged_length]
          by_cases full : bucket.slots.length = hashSlotNum
          · rw [if_pos full, if_pos full]
            by_cases level : bucket.depth = table.depth
            · rw [if_pos level]
              refine (if_pos level).trans ?_
              rw [doubleTable_unflagged]
              cases doubleTable table with
              | mk doubled grown =>
                cases grown with
                | false => rfl
                | true =>
                  simp only [partitionBucket_unflagged]
                  cases partitionBucket callbacks doubled
                      (getPrefix (callbacks.hashFunc key) table.depth) with
                  | none => rfl
                  | some result =>
                    cases result with
                    | mk parted done =>
                      cases done with
                      | false => rfl
                      | true => exact induction parted
            · rw [if_neg level]
              refine (if_neg level).trans ?_
              by_cases shallow : bucket.depth < table.depth
              · rw [if_pos shallow]
                refine (if_pos shallow).trans ?_
                rw [partitionBucket_unflagged]
                cases partitionBucket callbacks table
                    (getPrefix (callbacks.hashFunc key) table.depth) with
                | none => rfl
                | some result =>
                  cases result with
                  | mk parted done =>
                    cases done with
                    | false => rfl
                    | true => exact induction parted
              · rw [if_neg shallow]
                exact if_neg shallow
          · rw [if_neg full, if_neg full]
            by_cases many : hashSlotNum < bucket.slots.length
            · rw [if_pos many, if_pos many]
              rfl
            · rw [if_neg many, if_neg many]
              have pos := insertPos_unflagged bucket.slots (callbacks.hashFunc key)
              have stored := fun position => stored_unflagged table blockIdx position
                bucket (newSlot callbacks key data) rfl
              cases bucket with
              | mk slots depth flag =>
                cases flag with
                | sorted =>
                  exact congrArg (fun changed => some (changed, AddResult.success))
                    (pos ▸ (stored _).symm)
                | unsorted =>
                  exact congrArg (fun changed => some (changed, AddResult.success))
                    (stored _).symm
                | sorting => rfl

theorem hashSearch_unflagged (callbacks : Callbacks Key) (table : Table Key Data) (key : Key) :
    hashSearch callbacks table.unflagged key = hashSearch callbacks table key := by
  simp only [hashSearch, Table.unflagged_depth, Table.unflagged_directoryAt,
    Table.unflagged_getBucket]
  cases table.directoryAt (getPrefix (callbacks.hashFunc key) table.depth) with
  | none => rfl
  | some blockIdx =>
    simp only
    cases table.getBucket blockIdx with
    | none => rfl
    | some bucket =>
      simp only [Option.map_some, findSlot_unflagged]
      cases findSlot callbacks bucket key (callbacks.hashFunc key) with
      | none => rfl
      | some found =>
        simp only [Bucket.unflagged_at]
        cases bucket.slots[found]? <;> rfl

theorem hashUpdate_unflagged (callbacks : Callbacks Key) (table : Table Key Data) (key : Key)
    (data : Data) :
    hashUpdate callbacks table.unflagged key data =
      (hashUpdate callbacks table key data).map fun result =>
        (result.1.unflagged, result.2) := by
  simp only [hashUpdate, Table.unflagged_depth, Table.unflagged_directoryAt,
    Table.unflagged_getBucket]
  cases table.directoryAt (getPrefix (callbacks.hashFunc key) table.depth) with
  | none => rfl
  | some blockIdx =>
    simp only
    cases table.getBucket blockIdx with
    | none => rfl
    | some bucket =>
      simp only [Option.map_some, findSlot_unflagged]
      cases findSlot callbacks bucket key (callbacks.hashFunc key) with
      | none => rfl
      | some found =>
        simp only [Bucket.unflagged_at]
        cases bucket.slots[found]? with
        | none => rfl
        | some slot =>
          simp only [Option.map_some, Table.unflagged_setBucket, Bucket.unflagged,
            List.map_set]
          rfl

theorem deleteSlot_unflagged (table : Table Key Data) (row : Nat × Nat) :
    deleteSlot table.unflagged row = (deleteSlot table row).map Table.unflagged := by
  simp only [deleteSlot, Table.unflagged_directoryAt, Table.unflagged_getBucket]
  cases table.directoryAt row.1 with
  | none => rfl
  | some blockIdx =>
    simp only
    cases table.getBucket blockIdx with
    | none => rfl
    | some bucket =>
      simp only [Option.map_some, Bucket.unflagged_length]
      by_cases short : bucket.slots.length ≤ row.2
      · rw [if_pos short, if_pos short]
        rfl
      · rw [if_neg short, if_neg short]
        simp only [Option.map_some, Table.unflagged_setBucket, Bucket.unflagged,
          List.eraseIdx_map]

theorem deleteSlots_unflagged (table : Table Key Data) (rows : List (Nat × Nat)) :
    deleteSlots table.unflagged rows = (deleteSlots table rows).map Table.unflagged := by
  induction rows generalizing table with
  | nil => rfl
  | cons row rest induction =>
    simp only [deleteSlots, deleteSlot_unflagged]
    cases deleteSlot table row with
    | none => rfl
    | some next => exact induction next

theorem flagged_unflagged {table : Table Key Data} {blockIdx slotnum : Nat}
    {slot : Slot Key Data} (stored : (table.bucket blockIdx).slots[slotnum]? = some slot) :
    (table.setBucket blockIdx { table.bucket blockIdx with
      slots := (table.bucket blockIdx).slots.set slotnum { slot with deleted := true } }).unflagged =
    table.unflagged := by
  have at_slotnum : ((table.bucket blockIdx).slots.map Slot.unflagged)[slotnum]? =
      some slot.unflagged := by
    rw [List.getElem?_map, stored]
    rfl
  have same : ((table.bucket blockIdx).slots.map Slot.unflagged).set slotnum
      slot.unflagged = (table.bucket blockIdx).slots.map Slot.unflagged := by
    obtain ⟨bound, equal⟩ := List.getElem?_eq_some_iff.mp at_slotnum
    rw [← equal]
    exact List.set_getElem_self bound
  rw [Table.unflagged_setBucket]
  simp only [Bucket.unflagged, List.map_set]
  rw [show Slot.unflagged { slot with deleted := true } = slot.unflagged from rfl, same]
  exact setBucket_self table.unflagged blockIdx

theorem hashDelete_cases {callbacks : Callbacks Key} {shared after : Shared Key Data}
    {key : Key} {success : Bool}
    (result : hashDelete callbacks shared key = some (after, success)) :
    ∃ blockIdx found, Probe callbacks shared.table key blockIdx found ∧
      (found = none ∧ success = false ∧ after = shared ∨
        ∃ slotnum slot, found = some slotnum ∧ success = true ∧
          (shared.table.bucket blockIdx).slots[slotnum]? = some slot ∧
          (after.table.unflagged = shared.table.unflagged ∨
            deleteSlots shared.table.unflagged (shared.deletelist.take hashDeletelistSize) =
              some after.table.unflagged)) := by
  simp only [hashDelete] at result
  split at result
  case h_1 => cases result
  case h_2 blockIdx inDirectory =>
    split at result
    case h_1 => cases result
    case h_2 bucket inBlocks =>
      obtain ⟨-, rfl⟩ := getBucket_eq_some.mp inBlocks
      split at result
      case h_1 missed =>
        cases result
        exact ⟨blockIdx, none, ⟨inDirectory, inBlocks, missed⟩, .inl ⟨rfl, rfl, rfl⟩⟩
      case h_2 slotnum hit =>
        split at result
        case h_1 => cases result
        case h_2 slot stored =>
          refine ⟨blockIdx, some slotnum, ⟨inDirectory, inBlocks, hit⟩, .inr ⟨slotnum, slot, rfl, ?_⟩⟩
          split at result
          case isTrue pending =>
            split at result
            case h_1 => cases result
            case h_2 purged purging =>
              cases result
              refine ⟨rfl, stored, .inr ?_⟩
              rw [← flagged_unflagged stored, deleteSlots_unflagged, purging]
              rfl
          case isFalse =>
            cases result
            exact ⟨rfl, stored, .inl (flagged_unflagged stored)⟩

end Wisebot.Hash
