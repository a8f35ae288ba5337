import Wisebot.Docattr.Access

namespace Wisebot.Docattr

open Wisebot.Lib

/-! Setting one field: what it then reads, and what the record keeps. -/

def expectedValue (env : Environment) (field : Field) (value : CString) : Option Value :=
  match field.accessor with
  | .string => some (.string (value.bytes.take (field.size - 1)))
  | .md5 => some (.md5 (env.md5 value.bytes))
  | _ =>
    match dtIsNumber env.enums value with
    | some (some number) => some (.integer number)
    | _ => none

def BitAccepts (env : Environment) (field : Field) (value : CString) : Prop :=
  (field.accessor = .onebit ∧ (value.bytes = [48] ∨ value.bytes = [49])) ∨
  (field.accessor = .bit ∧ ∃ number, dtIsNumber env.enums value = some (some number) ∧
    number.toInt < 2 ^ field.bitSize)

/-- The values a field can be set to without harm: a number that fits the copy
`dt_isNumber` makes, an `int32_t` for four bytes, nothing negative for bits;
and bits that no other field looks at. -/
structure Tolerates (env : Environment) (schema : List Field) (field : Field)
    (value : CString) : Prop where
  short : field.accessor ≠ .string → field.accessor ≠ .md5 → field.accessor ≠ .onebit →
    value.bytes.length < shortStringSize
  inInt : field.accessor = .integer4 → ∀ number,
    dtIsNumber env.enums value = some (some number) →
      -2 ^ 31 ≤ number.toInt ∧ number.toInt < 2 ^ 31
  natural : field.accessor = .bit → ∀ number,
    dtIsNumber env.enums value = some (some number) → 0 ≤ number.toInt
  clear : BitAccepts env field value → ∀ other ∈ schema, other ≠ field → field.Disjoint other

section Numbers

variable {enums : List (List UInt8 × BitVec 64)} {value : CString}

theorem dtIsNumber_none_iff (enums : List (List UInt8 × BitVec 64)) (value : CString) :
    dtIsNumber enums value = none ↔ shortStringSize ≤ value.bytes.length := by
  rw [dtIsNumber]
  split
  case isTrue long => simp [long]
  case isFalse short =>
    simp only [short, iff_false]
    split
    · simp
    · split <;> simp

theorem dtIsNumber_zero : dtIsNumber enums ⟨[48], by decide⟩ = some (some 0) := by
  have result : strtol (blankZeros [48]) = ⟨0, false, []⟩ := by decide
  rw [dtIsNumber, if_neg (by decide)]
  simp [result]

theorem dtIsNumber_one : dtIsNumber enums ⟨[49], by decide⟩ = some (some 1) := by
  have result : strtol (blankZeros [49]) = ⟨1, false, []⟩ := by decide
  rw [dtIsNumber, if_neg (by decide)]
  simp [result]

theorem fits_int32 {number : BitVec 64} :
    (number.setWidth 32).signExtend 64 = number ↔
      -2 ^ 31 ≤ number.toInt ∧ number.toInt < 2 ^ 31 := by
  rw [← BitVec.toInt_inj, BitVec.toInt_signExtend_of_le (by decide), BitVec.toInt_setWidth,
    BitVec.toInt_eq_toNat_cond]
  have bound := number.isLt
  simp only [Int.bmod]
  split <;> split <;> omega

theorem width_toInt {size : Nat} (narrow : size ≤ 30) :
    ((1#32 <<< size).signExtend 64).toInt = 2 ^ size := by
  have all : ∀ size : Fin 31, ((1#32 <<< size.val).signExtend 64).toInt = 2 ^ size.val := by
    decide +kernel
  exact all ⟨size, by omega⟩

theorem width_sle {size : Nat} {number : BitVec 64} (narrow : size ≤ 30) :
    ((1#32 <<< size).signExtend 64).sle number = true ↔ 2 ^ size ≤ number.toInt := by
  rw [BitVec.sle_eq_decide, decide_eq_true_iff, width_toInt narrow]

end Numbers

section Setting

variable {env : Environment} {field : Field} {record : Record} {value : CString}

/-- The setter took the value: the field reads it and nothing outside its reach
has changed. -/
structure Stored (env : Environment) (field : Field) (value : CString)
    (before after : Record) : Prop where
  reads : ∃ expected, expectedValue env field value = some expected ∧
    getFunc after field = some expected
  frame : ∀ index, index < field.start ∨ field.reachStop ≤ index →
    after.getLsbD index = before.getLsbD index

theorem stringSetFunc_stored (placed : field.Placed) (kind : field.accessor = .string) :
    Stored env field value record (stringSetFunc record field value) := by
  have noBit : field.isBit = false := by simp [Field.isBit, kind]
  have some := placed.shaped.string kind
  have length := cutString_length value.bytes field.size some
  obtain ⟨start, stop⟩ := field.bytes_reach noBit
  constructor
  · refine ⟨.string (value.bytes.take (field.size - 1)), by simp [expectedValue, kind], ?_⟩
    have read : (List.range field.size).map (fun index =>
        loadByte (stringSetFunc record field value) (field.offset + index)) =
        cutString value.bytes field.size := by
      have inRecord : field.offset + (cutString value.bytes field.size).length ≤
          maxDocattrElementSize := by
        rw [length]
        exact placed.bytes noBit
      have stored := loadByte_storeBytes record inRecord
      rw [length] at stored
      exact stored
    simp only [getFunc, kind, stringGetFunc, read, takeWhile_cutString some]
  · intro index outside
    apply getLsbD_storeBytes_outside
    rw [length]
    omega

/-- A setter returns: it took the value or it left the record as it was. -/
def Returns (env : Environment) (field : Field) (value : CString) (record : Record)
    (result : Option (Ret × Record)) : Prop :=
  (∃ after, result = some (.success, after) ∧ Stored env field value record after) ∨
    result = some (.fail, record)

/-- The accessor is one of the integers of `bits` bits. -/
structure IsNumber (env : Environment) (field : Field) (value : CString) (bits : Nat) : Prop where
  noBit : field.isBit = false
  isSize : bits = bitPerByte * field.size
  reads : ∀ record, getFunc record field = some (.integer (getNumber record field bits))
  expects : ∀ number, dtIsNumber env.enums value = some (some number) →
    expectedValue env field value = some (.integer number)

theorem IsNumber.of_accessor (placed : field.Placed) {bits : Nat}
    (kind : (field.accessor = .integer ∧ bits = 64) ∨ (field.accessor = .integer4 ∧ bits = 32) ∨
      (field.accessor = .integer2 ∧ bits = 16) ∨ (field.accessor = .integer1 ∧ bits = 8)) :
    IsNumber env field value bits := by
  have shaped := placed.shaped
  have isSize : bits = bitPerByte * field.size := by
    obtain ⟨kind, rfl⟩ | ⟨kind, rfl⟩ | ⟨kind, rfl⟩ | ⟨kind, rfl⟩ := kind
    · rw [shaped.long (.inl kind), bitPerByte]
    · rw [shaped.integer4 kind, bitPerByte]
    · rw [shaped.integer2 kind, bitPerByte]
    · rw [shaped.integer1 kind, bitPerByte]
  obtain ⟨kind, rfl⟩ | ⟨kind, rfl⟩ | ⟨kind, rfl⟩ | ⟨kind, rfl⟩ := kind
  all_goals
    refine ⟨by simp [Field.isBit, kind], isSize, by simp [getFunc, kind], ?_⟩
    intro number isNumber
    simp [expectedValue, kind, isNumber]

theorem number_reads {bits : Nat} (number : BitVec 64) (placed : field.Placed)
    (kind : IsNumber env field value bits) :
    getFunc (Bits.store record (bitPerByte * field.offset) (number.setWidth bits)) field =
      some (.integer ((number.setWidth bits).signExtend 64)) := by
  have inRecord := placed.bytes kind.noBit
  have isSize := kind.isSize
  rw [kind.reads, getNumber, Bits.load_store]
  simp only [bitPerByte, maxDocattrElementSize] at isSize inRecord ⊢
  omega

theorem setNumber_returns {bits : Nat} {checked : Bool} (placed : field.Placed)
    (kind : IsNumber env field value bits) (short : value.bytes.length < shortStringSize)
    (fits : checked = false → ∀ number, dtIsNumber env.enums value = some (some number) →
      (number.setWidth bits).signExtend 64 = number) :
    Returns env field value record (setNumber env.enums record field value bits checked) := by
  rw [setNumber]
  cases parsed : dtIsNumber env.enums value with
  | none => exact absurd ((dtIsNumber_none_iff _ _).mp parsed) (Nat.not_le.mpr short)
  | some result =>
    cases result with
    | none => exact .inr rfl
    | some number =>
      simp only
      split
      case isTrue => exact .inr rfl
      case isFalse accepted =>
        have same : (number.setWidth bits).signExtend 64 = number := by
          cases checks : checked with
          | false => exact fits checks number parsed
          | true =>
            by_contra different
            exact accepted ⟨checks, different⟩
        refine .inl ⟨_, rfl, ⟨⟨.integer number, kind.expects number parsed, ?_⟩, ?_⟩⟩
        · rw [number_reads number placed kind, same]
        · intro index outside
          obtain ⟨start, stop⟩ := field.bytes_reach kind.noBit
          have isSize := kind.isSize
          apply Bits.getLsbD_store_outside
          simp only [bitPerByte] at isSize start stop ⊢
          omega

theorem onebit_frame {word : BitVec 64} (shaped : field.Shaped) (kind : field.accessor = .onebit)
    (same : ∀ bit < 64, ¬ (bit = field.bitOffset ∨ (field.bitOffset = 31 ∧ 31 ≤ bit)) →
      word.getLsbD bit = (loadLong record field.offset).getLsbD bit) :
    ∀ index, index < field.start ∨ field.reachStop ≤ index →
      (storeLong record field.offset word).getLsbD index = record.getLsbD index := by
  intro index outside
  apply getLsbD_storeLong_same
  rintro bit bound rfl
  apply same bit bound
  intro covered
  obtain ⟨behind, before⟩ := field.onebit_reach shaped kind bound covered
  omega

theorem onebitGetFunc_storeLong {word : BitVec 64} (placed : field.Placed)
    (kind : field.accessor = .onebit) (inInt : field.bitOffset ≤ 31) :
    onebitGetFunc (storeLong record field.offset word) field =
      some (if word &&& (1#32 <<< field.bitOffset).signExtend 64 ≠ 0 then 1 else 0) := by
  rw [onebitGetFunc, shiftOne_eq inInt]
  simp only [loadLong_storeLong (placed.bits (by simp [Field.isBit, kind])).2]

theorem onebitSetFunc_returns (placed : field.Placed) (kind : field.accessor = .onebit)
    (inInt : field.bitOffset ≤ 31) :
    Returns env field value record (onebitSetFunc record field value) := by
  obtain ⟨bytes, noZero⟩ := value
  rw [onebitSetFunc, shiftOne_eq inInt]
  split
  case isTrue zero =>
    simp only at zero
    subst zero
    refine .inl ⟨_, rfl, ⟨.integer 0, ?_, ?_⟩, onebit_frame placed.shaped kind ?_⟩
    · simp only [expectedValue, kind, dtIsNumber_zero]
    · simp only [getFunc, kind]
      rw [onebitGetFunc_storeLong placed kind inInt, BitVec.and_assoc, BitVec.and_comm (~~~_),
        BitVec.and_not_self, if_neg (by simp)]
      rfl
    · intro bit bound outside
      rw [BitVec.getLsbD_and, BitVec.getLsbD_not, getLsbD_one inInt bound]
      simp [outside, bound]
  case isFalse =>
    split
    case isTrue one =>
      simp only at one
      subst one
      refine .inl ⟨_, rfl, ⟨.integer 1, ?_, ?_⟩, onebit_frame placed.shaped kind ?_⟩
      · simp only [expectedValue, kind, dtIsNumber_one]
      · simp only [getFunc, kind]
        rw [onebitGetFunc_storeLong placed kind inInt, if_pos]
        · rfl
        · intro isZero
          have bit := congrArg (BitVec.getLsbD · field.bitOffset) isZero
          have bound : field.bitOffset < 64 := by omega
          simp only [BitVec.getLsbD_and, BitVec.getLsbD_or, getLsbD_one inInt bound] at bit
          simp at bit
      · intro bit bound outside
        rw [BitVec.getLsbD_or, getLsbD_one inInt bound]
        simp [outside]
    case isFalse => exact .inr rfl

theorem getLsbD_bitWord {size position index : Nat} {word number : BitVec 64}
    (narrow : size ≤ 30) (bound : index < 64)
    (small : ∀ bit, size ≤ bit → number.getLsbD bit = false) :
    ((word &&& ~~~(((1#32 <<< size) - 1).signExtend 64 <<< position)) |||
        (number <<< position)).getLsbD index =
      if position ≤ index ∧ index < position + size then number.getLsbD (index - position)
      else word.getLsbD index := by
  rw [BitVec.getLsbD_or, BitVec.getLsbD_and, BitVec.getLsbD_not, BitVec.getLsbD_shiftLeft,
    BitVec.getLsbD_shiftLeft, getLsbD_mask narrow]
  by_cases behind : position ≤ index
  · by_cases within : index < position + size
    · have inSize : index - position < size := by omega
      simp [behind, within, inSize, bound, Nat.not_lt.mpr behind]
    · have outside : ¬ index - position < size := by omega
      have zero := small (index - position) (by omega)
      simp [within, outside, bound, zero]
  · have before : index < position := by omega
    simp [behind, before, bound]

theorem bitSetFunc_returns (placed : field.Placed) (kind : field.accessor = .bit)
    (narrow : field.bitSize ≤ 30) (short : value.bytes.length < shortStringSize)
    (natural : ∀ number, dtIsNumber env.enums value = some (some number) → 0 ≤ number.toInt) :
    Returns env field value record (bitSetFunc env.enums record field value) := by
  have isBit : field.isBit := by simp [Field.isBit, kind]
  obtain ⟨inWord, inRecord⟩ := placed.bits isBit
  obtain ⟨start, stop⟩ := field.bit_reach kind
  rw [bitSetFunc]
  cases parsed : dtIsNumber env.enums value with
  | none => exact absurd ((dtIsNumber_none_iff _ _).mp parsed) (Nat.not_le.mpr short)
  | some result =>
    cases result with
    | none => exact .inr rfl
    | some number =>
      simp only [shiftOne_eq (show field.bitSize ≤ 31 by omega), lowMask_eq narrow]
      split
      case isTrue => exact .inr rfl
      case isFalse accepted =>
        rw [Bool.not_eq_true] at accepted
        have small : ∀ bit, field.bitSize ≤ bit → number.getLsbD bit = false :=
          fun bit behind => getLsbD_small narrow (natural number parsed) accepted behind
        refine .inl ⟨_, rfl, ⟨.integer number, ?_, ?_⟩, ?_⟩
        · simp only [expectedValue, kind, parsed]
        · simp only [getFunc, kind, bitGetFunc, lowMask_eq narrow,
            loadLong_storeLong inRecord, Option.map_some, Option.some.injEq,
            Value.integer.injEq]
          apply BitVec.eq_of_getLsbD_eq
          intro index bound
          rw [getLsbD_bitRead narrow inWord]
          by_cases inSize : index < field.bitSize
          · rw [getLsbD_bitWord narrow (by omega) small, if_pos (by omega),
              Nat.add_sub_cancel_left, decide_eq_true inSize, Bool.true_and]
          · rw [small index (by omega), decide_eq_false inSize, Bool.false_and]
        · intro index outside
          apply getLsbD_storeLong_same
          rintro bit bound rfl
          rw [getLsbD_bitWord narrow bound small, if_neg (by omega)]

theorem setFunc_returns {schema : List Field} (record : Record) (placed : field.Placed) (readable : field.Readable)
    (tolerates : Tolerates env schema field value) :
    Returns env field value record (setFunc env record field value) := by
  rw [setFunc]
  cases kind : field.accessor with
  | string => exact .inl ⟨_, rfl, stringSetFunc_stored placed kind⟩
  | integer =>
    have short := tolerates.short (by simp [kind]) (by simp [kind]) (by simp [kind])
    refine setNumber_returns placed (.of_accessor placed (.inl ⟨kind, rfl⟩)) short ?_
    intro _ number _
    rw [BitVec.setWidth_eq, BitVec.signExtend_eq]
  | integer4 =>
    have short := tolerates.short (by simp [kind]) (by simp [kind]) (by simp [kind])
    refine setNumber_returns placed (.of_accessor placed (.inr (.inl ⟨kind, rfl⟩))) short ?_
    intro _ number parsed
    exact fits_int32.mpr (tolerates.inInt kind number parsed)
  | integer2 =>
    have short := tolerates.short (by simp [kind]) (by simp [kind]) (by simp [kind])
    exact setNumber_returns placed (.of_accessor placed (.inr (.inr (.inl ⟨kind, rfl⟩)))) short
      (by simp)
  | integer1 =>
    have short := tolerates.short (by simp [kind]) (by simp [kind]) (by simp [kind])
    exact setNumber_returns placed (.of_accessor placed (.inr (.inr (.inr ⟨kind, rfl⟩)))) short
      (by simp)
  | onebit => exact onebitSetFunc_returns placed kind (readable.onebit kind)
  | bit =>
    have short := tolerates.short (by simp [kind]) (by simp [kind]) (by simp [kind])
    exact bitSetFunc_returns placed kind (readable.bit kind) short (tolerates.natural kind)
  | md5 =>
    have noBit : field.isBit = false := by simp [Field.isBit, kind]
    have size := placed.shaped.long (.inr kind)
    have inRecord := placed.bytes noBit
    rw [size] at inRecord
    obtain ⟨start, stop⟩ := field.bytes_reach noBit
    refine .inl ⟨_, rfl, ⟨.md5 (env.md5 value.bytes), by simp [expectedValue, kind], ?_⟩, ?_⟩
    · simp only [getFunc, kind, loadLong_storeLong inRecord]
    · intro index outside
      apply Bits.getLsbD_store_outside
      simp only [bitPerByte] at start stop ⊢
      omega

end Setting

end Wisebot.Docattr
