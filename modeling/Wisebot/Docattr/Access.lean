import Wisebot.Docattr.Layout

namespace Wisebot.Docattr

open Wisebot.Lib

/-! Which bits of the record a field's functions touch. Constants of type `int`
are widened with their sign, so the one at bit 31 covers the upper half of its
word as well. -/

namespace Field

/-- The bit behind the bits that the functions of a field look at. -/
def reachStop (field : Field) : Nat :=
  if field.accessor = .onebit ∧ field.bitOffset = 31 then bitPerByte * field.offset + 64
  else field.stop

/-- No function of the one touches a bit that a function of the other looks at. -/
def Disjoint (field other : Field) : Prop :=
  field.reachStop ≤ other.start ∨ other.reachStop ≤ field.start

structure Readable (field : Field) : Prop where
  onebit : field.accessor = .onebit → field.bitOffset ≤ 31
  bit : field.accessor = .bit → field.bitSize ≤ 30

end Field

section Constants

theorem lowMask_eq {size : Nat} (narrow : size ≤ 30) :
    lowMask size = some ((1#32 <<< size) - 1) := by
  have all : ∀ size : Fin 31, lowMask size = some ((1#32 <<< size.val) - 1) := by
    decide +kernel
  exact all ⟨size, by omega⟩

theorem lowMask_none {size : Nat} (wide : 30 < size) : lowMask size = none := by
  by_cases edge : size = 31
  · subst edge
    decide +kernel
  · have out : ¬ size < 32 := by omega
    simp [lowMask, shiftOne, out]

theorem getLsbD_mask {size index : Nat} (narrow : size ≤ 30) :
    (((1#32 <<< size) - 1).signExtend 64).getLsbD index = decide (index < size) := by
  have all : ∀ size : Fin 31, ∀ index : Fin 64,
      (((1#32 <<< size.val) - 1).signExtend 64).getLsbD index =
        decide (index.val < size.val) := by
    decide +kernel
  by_cases bound : index < 64
  · exact all ⟨size, by omega⟩ ⟨index, bound⟩
  · rw [BitVec.getLsbD_of_ge _ _ (by omega)]
    exact (decide_eq_false (by omega)).symm

theorem getLsbD_one {count index : Nat} (inInt : count ≤ 31) (bound : index < 64) :
    ((1#32 <<< count).signExtend 64).getLsbD index =
      decide (index = count ∨ (count = 31 ∧ 31 ≤ index)) := by
  have all : ∀ count : Fin 32, ∀ index : Fin 64,
      ((1#32 <<< count.val).signExtend 64).getLsbD index =
        decide (index.val = count.val ∨ (count.val = 31 ∧ 31 ≤ index.val)) := by
    decide +kernel
  exact all ⟨count, by omega⟩ ⟨index, bound⟩

theorem shiftOne_eq {count : Nat} (inInt : count ≤ 31) : shiftOne count = some (1#32 <<< count) := by
  rw [shiftOne, if_pos (by omega)]

theorem shiftOne_none {count : Nat} (out : 31 < count) : shiftOne count = none := by
  rw [shiftOne, if_neg (by omega)]

theorem getLsbD_small {size index : Nat} {number : BitVec 64} (narrow : size ≤ 30)
    (positive : 0 ≤ number.toInt)
    (small : ((1#32 <<< size).signExtend 64).sle number = false)
    (behind : size ≤ index) : number.getLsbD index = false := by
  have width : ∀ size : Fin 31,
      ((1#32 <<< size.val).signExtend 64).toInt = 2 ^ size.val := by
    decide +kernel
  have below : number.toInt < 2 ^ size := by
    have isWidth : ((1#32 <<< size).signExtend 64).toInt = 2 ^ size := width ⟨size, by omega⟩
    rw [BitVec.sle_eq_decide, decide_eq_false_iff_not, isWidth] at small
    exact lt_of_not_ge small
  have natural : number.toInt = number.toNat := by
    rw [BitVec.toInt_eq_toNat_cond] at positive ⊢
    split at positive <;> omega
  have bound : number.toNat < 2 ^ size := by
    have := natural ▸ below
    exact_mod_cast this
  rw [BitVec.getLsbD]
  exact Nat.testBit_lt_two_pow (bound.trans_le (Nat.pow_le_pow_right (by decide) behind))

end Constants

section Words

variable {record : Record} {offset index : Nat} {word : BitVec 64}

theorem getLsbD_loadLong (bound : index < 64) :
    (loadLong record offset).getLsbD index = record.getLsbD (bitPerByte * offset + index) := by
  simp only [loadLong, Bits.load, BitVec.getLsbD_extractLsb', bound, decide_true, Bool.true_and]

theorem loadLong_storeLong (fits : offset + sizeofLong ≤ maxDocattrElementSize) :
    loadLong (storeLong record offset word) offset = word := by
  simp only [sizeofLong, maxDocattrElementSize] at fits
  exact Bits.load_store (by simp only [bitPerByte]; omega)

theorem getLsbD_storeLong_same
    (same : ∀ bit < 64, index = bitPerByte * offset + bit →
      word.getLsbD bit = (loadLong record offset).getLsbD bit) :
    (storeLong record offset word).getLsbD index = record.getLsbD index := by
  by_cases within : bitPerByte * offset ≤ index ∧ index < bitPerByte * offset + 64
  · by_cases bound : index < 512
    · have isBit : index - bitPerByte * offset < 64 := by omega
      rw [storeLong, Bits.getLsbD_store bound, if_pos within, same _ isBit (by omega),
        getLsbD_loadLong isBit, Nat.add_sub_cancel' within.1]
    · rw [BitVec.getLsbD_of_ge _ _ (by omega), BitVec.getLsbD_of_ge _ _ (by omega)]
  · exact Bits.getLsbD_store_outside (by omega)

end Words

section Strings

variable {record : Record}

theorem getLsbD_storeBytes_outside {offset index : Nat} {bytes : List UInt8}
    (outside : index < bitPerByte * offset ∨ bitPerByte * (offset + bytes.length) ≤ index) :
    (storeBytes record offset bytes).getLsbD index = record.getLsbD index := by
  induction bytes generalizing record offset with
  | nil => rfl
  | cons byte bytes induction =>
    simp only [List.length_cons, bitPerByte] at outside
    rw [storeBytes, induction (by simp only [bitPerByte]; omega)]
    exact Bits.getLsbD_store_outside (by simp only [bitPerByte]; omega)

theorem loadByte_congr {other : Record} {offset : Nat}
    (same : ∀ index, bitPerByte * offset ≤ index → index < bitPerByte * (offset + 1) →
      other.getLsbD index = record.getLsbD index) :
    loadByte other offset = loadByte record offset := by
  rw [loadByte, loadByte]
  congr 1
  apply Bits.load_congr
  intro index behind before
  exact same index behind (by simp only [bitPerByte] at before ⊢; omega)

theorem loadByte_storeBytes (record : Record) {offset : Nat} {bytes : List UInt8}
    (fits : offset + bytes.length ≤ maxDocattrElementSize) :
    (List.range bytes.length).map (fun index =>
      loadByte (storeBytes record offset bytes) (offset + index)) = bytes := by
  induction bytes generalizing record offset with
  | nil => rfl
  | cons byte bytes induction =>
    simp only [List.length_cons, maxDocattrElementSize] at fits
    rw [List.length_cons, List.range_succ_eq_map, List.map_cons, List.map_map]
    congr 1
    · rw [storeBytes]
      have head : loadByte (storeBytes (Bits.store record (bitPerByte * offset)
          byte.toBitVec) (offset + 1) bytes) offset =
          loadByte (Bits.store record (bitPerByte * offset) byte.toBitVec) offset := by
        apply loadByte_congr
        intro index _ before
        exact getLsbD_storeBytes_outside (.inl before)
      change loadByte (storeBytes (Bits.store record (bitPerByte * offset)
        byte.toBitVec) (offset + 1) bytes) offset = byte
      rw [head, loadByte, Bits.load_store (by simp only [bitPerByte]; omega)]
    · have rest : (List.range bytes.length).map (fun index => loadByte (storeBytes
          (Bits.store record (bitPerByte * offset) byte.toBitVec) (offset + 1) bytes)
          (offset + 1 + index)) = bytes :=
        induction _ (by simp only [maxDocattrElementSize]; omega)
      rw [← rest]
      simp only [List.length_map, List.length_range]
      refine List.map_congr_left ?_
      intro index _
      simp only [Function.comp_apply, storeBytes, Nat.succ_eq_add_one]
      rw [rest, Nat.add_right_comm, Nat.add_assoc]

theorem cutString_length (value : List UInt8) (size : Nat) (some : 1 ≤ size) :
    (cutString value size).length = size := by
  simp only [cutString, List.length_append, List.length_replicate, List.length_take]
  omega

theorem takeWhile_cutString {value : CString} {size : Nat} (some : 1 ≤ size) :
    (cutString value.bytes size).takeWhile (· ≠ 0) = value.bytes.take (size - 1) := by
  have noZero : ∀ byte ∈ value.bytes.take (size - 1), decide (byte ≠ 0) = true := by
    intro byte member
    have different : byte ≠ 0 := by
      rintro rfl
      exact value.noZero (List.mem_of_mem_take member)
    simpa using different
  have zero : ∃ count, size - (value.bytes.take (size - 1)).length = count + 1 :=
    ⟨size - (value.bytes.take (size - 1)).length - 1, by
      have := List.length_take_le (size - 1) value.bytes
      omega⟩
  obtain ⟨count, isCount⟩ := zero
  rw [cutString, List.takeWhile_append_of_pos noZero, isCount, List.replicate_succ]
  simp

end Strings

section Reading

variable {field : Field} {record other : Record}

theorem Field.bytes_reach (noBit : field.isBit = false) :
    field.start = bitPerByte * field.offset ∧
      field.reachStop = bitPerByte * (field.offset + field.size) := by
  have notOnebit : field.accessor ≠ .onebit := by
    intro isOnebit
    simp [Field.isBit, isOnebit] at noBit
  simp [Field.start, Field.reachStop, Field.stop, noBit, notOnebit]

theorem Field.bit_reach (isBit : field.accessor = .bit) :
    field.start = bitPerByte * field.offset + field.bitOffset ∧
      field.reachStop = bitPerByte * field.offset + field.bitOffset + field.bitSize := by
  simp [Field.start, Field.reachStop, Field.stop, Field.isBit, isBit]

theorem Field.onebit_start (isOnebit : field.accessor = .onebit) :
    field.start = bitPerByte * field.offset + field.bitOffset := by
  simp [Field.start, Field.isBit, isOnebit]

theorem Field.onebit_reach {index : Nat} (shaped : field.Shaped)
    (isOnebit : field.accessor = .onebit) (bound : index < 64)
    (covered : index = field.bitOffset ∨ (field.bitOffset = 31 ∧ 31 ≤ index)) :
    field.start ≤ bitPerByte * field.offset + index ∧
      bitPerByte * field.offset + index < field.reachStop := by
  have one := shaped.onebit isOnebit
  rw [field.onebit_start isOnebit, Field.reachStop]
  by_cases edge : field.bitOffset = 31
  · rw [if_pos ⟨isOnebit, edge⟩]
    omega
  · rw [if_neg (by simp [edge])]
    simp only [Field.stop, Field.isBit, isOnebit, decide_true, Bool.decide_or, Bool.true_or,
      if_true]
    omega

theorem getNumber_congr (bits : Nat) (noBit : field.isBit = false)
    (isSize : bits = bitPerByte * field.size)
    (same : ∀ index, field.start ≤ index → index < field.reachStop →
      other.getLsbD index = record.getLsbD index) :
    getNumber other field bits = getNumber record field bits := by
  obtain ⟨start, stop⟩ := field.bytes_reach noBit
  rw [getNumber, getNumber]
  congr 1
  apply Bits.load_congr
  intro index behind before
  refine same index (by omega) ?_
  rw [stop, Nat.mul_add]
  omega

theorem stringGetFunc_congr (noBit : field.isBit = false)
    (same : ∀ index, field.start ≤ index → index < field.reachStop →
      other.getLsbD index = record.getLsbD index) :
    stringGetFunc other field = stringGetFunc record field := by
  obtain ⟨start, stop⟩ := field.bytes_reach noBit
  rw [stringGetFunc, stringGetFunc]
  congr 1
  refine List.map_congr_left ?_
  intro position inField
  rw [List.mem_range] at inField
  apply loadByte_congr
  intro index behind before
  simp only [bitPerByte] at start stop behind before
  exact same index (by omega) (by omega)

theorem onebitGetFunc_congr (shaped : field.Shaped) (isOnebit : field.accessor = .onebit)
    (same : ∀ index, field.start ≤ index → index < field.reachStop →
      other.getLsbD index = record.getLsbD index) :
    onebitGetFunc other field = onebitGetFunc record field := by
  rw [onebitGetFunc, onebitGetFunc]
  by_cases inInt : field.bitOffset ≤ 31
  · rw [shiftOne_eq inInt]
    have masked : loadLong other field.offset &&& (1#32 <<< field.bitOffset).signExtend 64 =
        loadLong record field.offset &&& (1#32 <<< field.bitOffset).signExtend 64 := by
      apply BitVec.eq_of_getLsbD_eq
      intro index bound
      rw [BitVec.getLsbD_and, BitVec.getLsbD_and, getLsbD_one inInt bound]
      by_cases covered : index = field.bitOffset ∨ (field.bitOffset = 31 ∧ 31 ≤ index)
      · obtain ⟨behind, before⟩ := field.onebit_reach shaped isOnebit bound covered
        rw [getLsbD_loadLong bound, getLsbD_loadLong bound, same _ behind before]
      · simp [covered]
    simp only [masked]
  · rw [shiftOne_none (by omega)]

theorem getLsbD_bitRead {size position index : Nat} {word : BitVec 64} (narrow : size ≤ 30)
    (inWord : position + size ≤ 64) :
    (word.sshiftRight position &&& ((1#32 <<< size) - 1).signExtend 64).getLsbD index =
      (decide (index < size) && word.getLsbD (position + index)) := by
  rw [BitVec.getLsbD_and, getLsbD_mask narrow]
  by_cases inSize : index < size
  · have bound : index < 64 := by omega
    have within : position + index < 64 := by omega
    rw [BitVec.getLsbD_sshiftRight, if_pos within, decide_eq_false (by omega),
      decide_eq_true inSize]
    simp
  · simp [inSize]

theorem bitGetFunc_congr (isBit : field.accessor = .bit)
    (inWord : field.bitOffset + field.bitSize ≤ 64)
    (same : ∀ index, field.start ≤ index → index < field.reachStop →
      other.getLsbD index = record.getLsbD index) :
    bitGetFunc other field = bitGetFunc record field := by
  obtain ⟨start, stop⟩ := field.bit_reach isBit
  rw [bitGetFunc, bitGetFunc]
  by_cases narrow : field.bitSize ≤ 30
  · rw [lowMask_eq narrow]
    simp only [Option.some.injEq]
    apply BitVec.eq_of_getLsbD_eq
    intro index _
    rw [getLsbD_bitRead narrow inWord, getLsbD_bitRead narrow inWord]
    by_cases inSize : index < field.bitSize
    · rw [getLsbD_loadLong (by omega), getLsbD_loadLong (by omega),
        same _ (by omega) (by omega)]
    · simp [inSize]
  · rw [lowMask_none (by omega)]

structure Field.Placed (field : Field) : Prop where
  shaped : field.Shaped
  bits : field.isBit → field.bitOffset + field.bitSize ≤ 64 ∧
    field.offset + sizeofLong ≤ maxDocattrElementSize
  bytes : field.isBit = false → field.offset + field.size ≤ maxDocattrElementSize

theorem WellLaid.placed {schema : List Field} (laid : WellLaid schema) (member : field ∈ schema) :
    field.Placed :=
  ⟨laid.shaped field member, fun isBit => (laid.bits field member isBit).2,
    laid.bytes field member⟩

theorem getFunc_congr (placed : field.Placed)
    (same : ∀ index, field.start ≤ index → index < field.reachStop →
      other.getLsbD index = record.getLsbD index) :
    getFunc other field = getFunc record field := by
  have shaped := placed.shaped
  rw [getFunc, getFunc]
  cases kind : field.accessor with
  | string => simp only [stringGetFunc_congr (by simp [Field.isBit, kind]) same]
  | integer =>
    simp only [getNumber_congr 64 (by simp [Field.isBit, kind])
      (by rw [shaped.long (.inl kind), bitPerByte]) same]
  | integer4 =>
    simp only [getNumber_congr 32 (by simp [Field.isBit, kind])
      (by rw [shaped.integer4 kind, bitPerByte]) same]
  | integer2 =>
    simp only [getNumber_congr 16 (by simp [Field.isBit, kind])
      (by rw [shaped.integer2 kind, bitPerByte]) same]
  | integer1 =>
    simp only [getNumber_congr 8 (by simp [Field.isBit, kind])
      (by rw [shaped.integer1 kind, bitPerByte]) same]
  | onebit => simp only [onebitGetFunc_congr shaped kind same]
  | bit =>
    simp only [bitGetFunc_congr kind (placed.bits (by simp [Field.isBit, kind])).1 same]
  | md5 =>
    have noBit : field.isBit = false := by simp [Field.isBit, kind]
    have number := getNumber_congr 64 noBit
      (by rw [shaped.long (.inr kind), bitPerByte]) same
    rw [getNumber, getNumber, BitVec.signExtend_eq, BitVec.signExtend_eq] at number
    simp only [loadLong, number]

theorem getFunc_readable (record : Record) : (∃ value, getFunc record field = some value) ↔ field.Readable := by
  have trivial (other : Accessor) (isOther : field.accessor = other) (notOnebit : other ≠ .onebit)
      (notBit : other ≠ .bit) : field.Readable :=
    ⟨fun kind => absurd (isOther ▸ kind) notOnebit, fun kind => absurd (isOther ▸ kind) notBit⟩
  rw [getFunc]
  cases kind : field.accessor with
  | string => exact ⟨fun _ => trivial _ kind (by simp) (by simp), fun _ => ⟨_, rfl⟩⟩
  | integer => exact ⟨fun _ => trivial _ kind (by simp) (by simp), fun _ => ⟨_, rfl⟩⟩
  | integer4 => exact ⟨fun _ => trivial _ kind (by simp) (by simp), fun _ => ⟨_, rfl⟩⟩
  | integer2 => exact ⟨fun _ => trivial _ kind (by simp) (by simp), fun _ => ⟨_, rfl⟩⟩
  | integer1 => exact ⟨fun _ => trivial _ kind (by simp) (by simp), fun _ => ⟨_, rfl⟩⟩
  | md5 => exact ⟨fun _ => trivial _ kind (by simp) (by simp), fun _ => ⟨_, rfl⟩⟩
  | onebit =>
    simp only [onebitGetFunc]
    by_cases inInt : field.bitOffset ≤ 31
    · rw [shiftOne_eq inInt]
      exact ⟨fun _ => ⟨fun _ => inInt, by simp [kind]⟩, fun _ => ⟨_, rfl⟩⟩
    · rw [shiftOne_none (by omega)]
      exact ⟨by simp, fun readable => absurd (readable.onebit kind) inInt⟩
  | bit =>
    simp only [bitGetFunc]
    by_cases narrow : field.bitSize ≤ 30
    · rw [lowMask_eq narrow]
      exact ⟨fun _ => ⟨by simp [kind], fun _ => narrow⟩, fun _ => ⟨_, rfl⟩⟩
    · rw [lowMask_none (by omega)]
      exact ⟨by simp, fun readable => absurd (readable.bit kind) narrow⟩

end Reading

end Wisebot.Docattr
