import Wisebot.Docattr.Setting

namespace Wisebot.Docattr

open Wisebot.Lib

/-! Masks: a record with the ids of the fields that have been set in it, which is
applied to other records later. A bit that a call leaves in a record is either
given by the value or the one that was there. -/

/-- `init` is 0 until the first call clears the ids. -/
structure GeneralMask where
  init : Bool
  id : List Int
  docattr : Record

def GeneralMask.zero : GeneralMask := ⟨false, List.replicate maxDocattrField 0, 0⟩

/-- The loop that enters an id; a full list is left as it is. -/
def enterId (fieldId : Int) : List Int → List Int
  | [] => []
  | id :: ids =>
    if id < 0 then fieldId :: ids
    else if id = fieldId then id :: ids
    else id :: enterId fieldId ids

/-- The index that `return_docattr_field` returns. -/
def docattrFieldId (schema : List Field) (name : List UInt8) : Nat :=
  schema.findIdx fun field => sameName name field.name

def setDocmaskFunction (env : Environment) (schema : List Field) (mask : GeneralMask)
    (name : List UInt8) (value : CString) : Option (Ret × GeneralMask) :=
  match returnDocattrField schema name with
  | none => some (.fail, mask)
  | some field =>
    let id := if mask.init then mask.id else List.replicate maxDocattrField (-1)
    match setFunc env mask.docattr field value with
    | none => none
    | some (.fail, docattr) => some (.fail, ⟨true, id, docattr⟩)
    | some (.success, docattr) =>
      some (.success, ⟨true, enterId (docattrFieldId schema name) id, docattr⟩)

/-- The bits of a field in its word, a constant of type `int`. -/
def bitMask (field : Field) : Option (BitVec 64) :=
  match lowMask field.bitSize with
  | none => none
  | some mask =>
    if mask.toNat * 2 ^ field.bitOffset < 2 ^ 31 then
      some ((mask <<< field.bitOffset).signExtend 64)
    else none

/-- One field from the mask; `FIELD_BIT` is the type of the fields of bits. -/
def maskField (source dest : Record) (field : Field) : Option Record :=
  if field.isBit then
    (bitMask field).map fun mask =>
      storeLong dest field.offset
        ((loadLong dest field.offset &&& ~~~mask) ||| (loadLong source field.offset &&& mask))
  else
    some (Bits.store dest (bitPerByte * field.offset)
      (Bits.load source (bitPerByte * field.offset) (bitPerByte * field.size)))

/-- The loop over the ids, which only a negative one ends; `none` is a read behind
the list. -/
def maskFields (schema : List Field) (source : Record) : List Int → Record → Option Record
  | [], _ => none
  | id :: ids, record =>
    if id < 0 then some record
    else
      match schema[id.toNat]? with
      | none => none
      | some field => (maskField source record field).bind (maskFields schema source ids)

def maskFunction (schema : List Field) (record : Record) (mask : GeneralMask) :
    Option (Ret × Record) :=
  if mask.init then (maskFields schema mask.docattr mask.id record).map (.success, ·)
  else some (.success, record)

def setDocattrs (env : Environment) (schema : List Field) :
    Record → List (List UInt8 × CString) → Option Record
  | record, [] => some record
  | record, (name, value) :: pairs =>
    match setDocattrFunction env schema record name value with
    | some (.success, record) => setDocattrs env schema record pairs
    | _ => none

def setDocmasks (env : Environment) (schema : List Field) :
    GeneralMask → List (List UInt8 × CString) → Option GeneralMask
  | mask, [] => some mask
  | mask, (name, value) :: pairs =>
    match setDocmaskFunction env schema mask name value with
    | some (.success, mask) => setDocmasks env schema mask pairs
    | _ => none

def Field.Covers (field : Field) (index : Nat) : Prop :=
  field.start ≤ index ∧ index < field.stop

/-- The bits behind its field that `bit_set_func` sets, those of a negative number. -/
def spills (env : Environment) (field : Field) (value : CString) (index : Nat) : Bool :=
  match field.accessor, dtIsNumber env.enums value with
  | .bit, some (some number) =>
    field.stop ≤ index && index < bitPerByte * field.offset + 64 &&
      (number <<< field.bitOffset).getLsbD (index - bitPerByte * field.offset)
  | _, _ => false

/-- The value can be set: whatever the record, the field gets the same bits, and
elsewhere bits are set only. -/
def Writes (env : Environment) (field : Field) (value : CString) : Prop :=
  ∃ given : Nat → Bool, ∀ record : Record, ∃ after,
    setFunc env record field value = some (.success, after) ∧
      ∀ index < 512,
        (field.Covers index → after.getLsbD index = given index) ∧
        (¬field.Covers index →
          after.getLsbD index = (record.getLsbD index || spills env field value index))

def Low (schema : List Field) : Prop :=
  ∀ field ∈ schema, field.isBit → field.bitOffset + field.bitSize ≤ 31

section Writing

variable {env : Environment} {field : Field} {value : CString}

theorem spills_other (notBit : field.accessor ≠ .bit) (index : Nat) :
    spills env field value index = false := by
  unfold spills
  split
  · rename_i isBit _
    exact absurd isBit notBit
  · rfl

theorem Field.covers_bytes (noBit : field.isBit = false) (index : Nat) :
    field.Covers index ↔ bitPerByte * field.offset ≤ index ∧
      index < bitPerByte * (field.offset + field.size) := by
  simp [Field.Covers, Field.start, Field.stop, noBit]

theorem writes_of_store {bits : Nat} (noBit : field.isBit = false)
    (isSize : bits = bitPerByte * field.size) (number : BitVec bits)
    (sets : ∀ record, setFunc env record field value =
      some (.success, Bits.store record (bitPerByte * field.offset) number)) :
    Writes env field value := by
  have notBit : field.accessor ≠ .bit := by
    intro isBit
    simp [Field.isBit, isBit] at noBit
  refine ⟨fun index => number.getLsbD (index - bitPerByte * field.offset), fun record =>
    ⟨_, sets record, fun index bound => ?_⟩⟩
  have range : field.Covers index ↔ bitPerByte * field.offset ≤ index ∧
      index < bitPerByte * field.offset + bits := by
    rw [Field.covers_bytes noBit, isSize, Nat.mul_add]
  rw [Bits.getLsbD_store bound, spills_other notBit, Bool.or_false, range]
  exact ⟨fun within => if_pos within, fun outside => if_neg outside⟩

theorem setNumber_writes (bits : Nat) (checked : Bool) {record after : Record}
    (noBit : field.isBit = false) (isSize : bits = bitPerByte * field.size)
    (isNumber : ∀ record, setFunc env record field value =
      setNumber env.enums record field value bits checked)
    (set : setFunc env record field value = some (.success, after)) :
    Writes env field value := by
  rw [isNumber, setNumber] at set
  cases parsed : dtIsNumber env.enums value with
  | none =>
    rw [parsed] at set
    cases set
  | some result =>
    cases result with
    | none =>
      rw [parsed] at set
      cases set
    | some number =>
      simp only [parsed] at set
      split at set
      · cases set
      · rename_i accepted
        refine writes_of_store noBit isSize (number.setWidth bits) fun record => ?_
        rw [isNumber, setNumber]
        simp only [parsed]
        rw [if_neg accepted]

theorem getLsbD_storeBytes_congr (bytes : List UInt8) :
    ∀ {record other : Record} {offset index : Nat}, index < 512 →
      bitPerByte * offset ≤ index → index < bitPerByte * (offset + bytes.length) →
      (storeBytes record offset bytes).getLsbD index =
        (storeBytes other offset bytes).getLsbD index := by
  induction bytes with
  | nil =>
    intro record other offset index _ behind before
    rw [List.length_nil, Nat.add_zero] at before
    omega
  | cons byte bytes ih =>
    intro record other offset index bound behind before
    rw [storeBytes, storeBytes]
    by_cases first : index < bitPerByte * (offset + 1)
    · have within : bitPerByte * offset ≤ index ∧ index < bitPerByte * offset + 8 :=
        ⟨behind, by simp only [bitPerByte] at first ⊢; omega⟩
      rw [getLsbD_storeBytes_outside (Or.inl first),
        getLsbD_storeBytes_outside (Or.inl first), Bits.getLsbD_store bound,
        Bits.getLsbD_store bound, if_pos within, if_pos within]
    · refine ih bound (Nat.le_of_not_lt first) ?_
      rw [List.length_cons] at before
      rw [Nat.add_assoc, Nat.add_comm 1]
      exact before

theorem string_writes (placed : field.Placed) (kind : field.accessor = .string) :
    Writes env field value := by
  have noBit : field.isBit = false := by simp [Field.isBit, kind]
  have length := cutString_length value.bytes field.size (placed.shaped.string kind)
  refine ⟨fun index => (stringSetFunc 0 field value).getLsbD index, fun record =>
    ⟨stringSetFunc record field value, by rw [setFunc]; simp only [kind], fun index bound => ?_⟩⟩
  rw [spills_other (by simp [kind]), Bool.or_false, Field.covers_bytes noBit]
  refine ⟨fun inside => ?_, fun outside => ?_⟩
  · exact getLsbD_storeBytes_congr _ bound inside.1 (by rw [length]; exact inside.2)
  · refine getLsbD_storeBytes_outside ?_
    rw [length]
    omega

theorem md5_writes (placed : field.Placed) (kind : field.accessor = .md5) :
    Writes env field value := by
  have noBit : field.isBit = false := by simp [Field.isBit, kind]
  refine writes_of_store noBit (by rw [placed.shaped.long (.inr kind), bitPerByte])
    (env.md5 value.bytes) fun record => ?_
  rw [setFunc]
  simp only [kind, storeLong]

theorem writes_of_word (given : Nat → Bool) (word : Record → BitVec 64) (isBit : field.isBit)
    (inWord : field.bitOffset + field.bitSize ≤ 64)
    (sets : ∀ record, setFunc env record field value =
      some (.success, storeLong record field.offset (word record)))
    (inside : ∀ record bit, field.bitOffset ≤ bit → bit < field.bitOffset + field.bitSize →
      (word record).getLsbD bit = given bit)
    (outside : ∀ record bit, bit < 64 →
      ¬(field.bitOffset ≤ bit ∧ bit < field.bitOffset + field.bitSize) →
      (word record).getLsbD bit = ((loadLong record field.offset).getLsbD bit ||
        spills env field value (bitPerByte * field.offset + bit))) :
    Writes env field value := by
  refine ⟨fun index => given (index - bitPerByte * field.offset), fun record =>
    ⟨_, sets record, fun index bound => ?_⟩⟩
  have range : field.Covers index ↔ bitPerByte * field.offset + field.bitOffset ≤ index ∧
      index < bitPerByte * field.offset + field.bitOffset + field.bitSize := by
    simp [Field.Covers, Field.start, Field.stop, isBit]
  rw [storeLong, Bits.getLsbD_store bound, range]
  by_cases here : bitPerByte * field.offset ≤ index ∧ index < bitPerByte * field.offset + 64
  · have isIndex : bitPerByte * field.offset + (index - bitPerByte * field.offset) = index :=
      Nat.add_sub_cancel' here.1
    rw [if_pos here]
    refine ⟨fun within => inside record _ (by omega) (by omega), fun beyond => ?_⟩
    rw [outside record _ (by omega) (by omega), isIndex, getLsbD_loadLong (by omega), isIndex]
  · rw [if_neg here]
    refine ⟨fun within => absurd within (by omega), fun _ => ?_⟩
    have noSpill : spills env field value index = false := by
      unfold spills
      split
      · have stop : field.stop = bitPerByte * field.offset + field.bitOffset + field.bitSize := by
          simp [Field.stop, isBit]
        rw [stop]
        have far : ¬(bitPerByte * field.offset + field.bitOffset + field.bitSize ≤ index ∧
            index < bitPerByte * field.offset + 64) := by omega
        rw [← decide_eq_false_iff_not] at far
        rw [← Bool.decide_and, far, Bool.false_and]
      · rfl
    rw [noSpill, Bool.or_false]

theorem onebit_writes {record after : Record} (placed : field.Placed)
    (kind : field.accessor = .onebit) (low : field.bitOffset + field.bitSize ≤ 31)
    (set : setFunc env record field value = some (.success, after)) :
    Writes env field value := by
  have isBit : field.isBit := by simp [Field.isBit, kind]
  have inWord := (placed.bits isBit).1
  have one := placed.shaped.onebit kind
  have single : ∀ bit, bit < 64 → ((1#32 <<< field.bitOffset).signExtend 64).getLsbD bit =
      decide (bit = field.bitOffset) := by
    intro bit bound
    rw [getLsbD_one (by omega) bound]
    congr 1
    simp only [eq_iff_iff, or_iff_left_iff_imp, and_imp]
    omega
  have noSpill : ∀ index, spills env field value index = false :=
    spills_other (by simp [kind])
  rw [setFunc] at set
  simp only [kind, onebitSetFunc, shiftOne_eq (show field.bitOffset ≤ 31 by omega)] at set
  by_cases zero : value.bytes = [48]
  · refine writes_of_word (fun _ => false) (fun record => loadLong record field.offset &&&
      ~~~((1#32 <<< field.bitOffset).signExtend 64)) isBit inWord (fun record => ?_) ?_ ?_
    · rw [setFunc]
      simp only [kind, onebitSetFunc, shiftOne_eq (show field.bitOffset ≤ 31 by omega)]
      rw [if_pos zero]
    · intro record bit behind before
      rw [BitVec.getLsbD_and, BitVec.getLsbD_not, single bit (by omega),
        decide_eq_true (show bit = field.bitOffset by omega)]
      simp
    · intro record bit bound outside
      rw [BitVec.getLsbD_and, BitVec.getLsbD_not, single bit bound,
        decide_eq_false (show ¬bit = field.bitOffset by omega), noSpill]
      simp [bound]
  · rw [if_neg zero] at set
    by_cases isOne : value.bytes = [49]
    · refine writes_of_word (fun _ => true) (fun record => loadLong record field.offset |||
        (1#32 <<< field.bitOffset).signExtend 64) isBit inWord (fun record => ?_) ?_ ?_
      · rw [setFunc]
        simp only [kind, onebitSetFunc, shiftOne_eq (show field.bitOffset ≤ 31 by omega)]
        rw [if_neg zero, if_pos isOne]
      · intro record bit behind before
        rw [BitVec.getLsbD_or, single bit (by omega),
          decide_eq_true (show bit = field.bitOffset by omega), Bool.or_true]
      · intro record bit bound outside
        rw [BitVec.getLsbD_or, single bit bound,
          decide_eq_false (show ¬bit = field.bitOffset by omega), noSpill]
    · rw [if_neg isOne] at set
      cases set

theorem bit_writes {record after : Record} (placed : field.Placed)
    (kind : field.accessor = .bit) (low : field.bitOffset + field.bitSize ≤ 31)
    (set : setFunc env record field value = some (.success, after)) :
    Writes env field value := by
  have isBit : field.isBit := by simp [Field.isBit, kind]
  have inWord := (placed.bits isBit).1
  rw [setFunc] at set
  simp only [kind, bitSetFunc] at set
  cases parsed : dtIsNumber env.enums value with
  | none =>
    rw [parsed] at set
    cases set
  | some result =>
    cases result with
    | none =>
      rw [parsed] at set
      cases set
    | some number =>
      simp only [parsed, shiftOne_eq (show field.bitSize ≤ 31 by omega)] at set
      split at set
      · cases set
      · rename_i accepted
        by_cases narrow : field.bitSize ≤ 30
        · have isMask := fun index => @getLsbD_mask _ index narrow
          refine writes_of_word (fun bit => number.getLsbD (bit - field.bitOffset))
            (fun record => (loadLong record field.offset &&&
              ~~~(((1#32 <<< field.bitSize) - 1).signExtend 64 <<< field.bitOffset)) |||
                (number <<< field.bitOffset)) isBit inWord (fun record => ?_) ?_ ?_
          · rw [setFunc]
            simp only [kind, bitSetFunc, parsed,
              shiftOne_eq (show field.bitSize ≤ 31 by omega), lowMask_eq narrow]
            rw [if_neg accepted]
          · intro record bit behind before
            have bound : bit < 64 := by omega
            rw [BitVec.getLsbD_or, BitVec.getLsbD_and, BitVec.getLsbD_not,
              BitVec.getLsbD_shiftLeft, BitVec.getLsbD_shiftLeft, isMask]
            simp [bound, Nat.not_lt.mpr behind, show bit - field.bitOffset < field.bitSize by
              omega]
          · intro record bit bound outside
            have stop : field.stop =
                bitPerByte * field.offset + field.bitOffset + field.bitSize := by
              simp [Field.stop, isBit]
            rw [BitVec.getLsbD_or, BitVec.getLsbD_and, BitVec.getLsbD_not,
              BitVec.getLsbD_shiftLeft, BitVec.getLsbD_shiftLeft, isMask]
            simp only [spills, kind, parsed, stop, Nat.add_sub_cancel_left,
              BitVec.getLsbD_shiftLeft]
            by_cases before : bit < field.bitOffset
            · simp [before, bound, show ¬field.bitOffset + field.bitSize ≤ bit by omega,
                Nat.add_assoc]
            · simp [before, bound, show ¬bit - field.bitOffset < field.bitSize by omega,
                show field.bitOffset + field.bitSize ≤ bit by omega, Nat.add_assoc]
        · rw [lowMask_none (by omega)] at set
          cases set

theorem setFunc_writes {record after : Record} (placed : field.Placed)
    (low : field.isBit → field.bitOffset + field.bitSize ≤ 31)
    (set : setFunc env record field value = some (.success, after)) :
    Writes env field value := by
  have shaped := placed.shaped
  cases kind : field.accessor with
  | string => exact string_writes placed kind
  | integer =>
    refine setNumber_writes 64 false (by simp [Field.isBit, kind])
      (by rw [shaped.long (.inl kind), bitPerByte]) (fun record => ?_) set
    rw [setFunc]
    simp only [kind]
  | integer4 =>
    refine setNumber_writes 32 false (by simp [Field.isBit, kind])
      (by rw [shaped.integer4 kind, bitPerByte]) (fun record => ?_) set
    rw [setFunc]
    simp only [kind]
  | integer2 =>
    refine setNumber_writes 16 true (by simp [Field.isBit, kind])
      (by rw [shaped.integer2 kind, bitPerByte]) (fun record => ?_) set
    rw [setFunc]
    simp only [kind]
  | integer1 =>
    refine setNumber_writes 8 true (by simp [Field.isBit, kind])
      (by rw [shaped.integer1 kind, bitPerByte]) (fun record => ?_) set
    rw [setFunc]
    simp only [kind]
  | onebit => exact onebit_writes placed kind (low (by simp [Field.isBit, kind])) set
  | bit => exact bit_writes placed kind (low (by simp [Field.isBit, kind])) set
  | md5 => exact md5_writes placed kind

end Writing

end Wisebot.Docattr
