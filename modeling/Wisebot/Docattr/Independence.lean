import Wisebot.Docattr.Setting

namespace Wisebot.Docattr

open Wisebot.Lib

/-! A record as independent fields: what setting one field leaves in it and in
the others, and exactly for which schemas and values. -/

def ReadsAsBefore (before after : Record) (field : Field) : Prop :=
  ∃ value, getFunc before field = some value ∧ getFunc after field = some value

def Independent (env : Environment) (schema : List Field) (name : List UInt8)
    (value : CString) : Prop :=
  ∀ record, ∃ ret after, setDocattrFunction env schema record name value = some (ret, after) ∧
    (ret = .success → ∃ field expected, returnDocattrField schema name = some field ∧
      expectedValue env field value = some expected ∧ getFunc after field = some expected ∧
      ∀ other ∈ schema, other ≠ field → ReadsAsBefore record after other) ∧
    (ret = .fail → ∀ other ∈ schema, ReadsAsBefore record after other)

def Safe (env : Environment) (schema : List Field) (name : List UInt8) (value : CString) : Prop :=
  (∀ field ∈ schema, field.Readable) ∧
    ∀ field, returnDocattrField schema name = some field → Tolerates env schema field value

/-! Fields that are in each other's way share a word with a field of one bit at
bit 31. -/

section Conflicts

variable {schema : List Field} {field other : Field}

/-- One field lies behind bit 31, which is another field, in the same word. -/
structure Shadowed (field other : Field) : Prop where
  onebit : field.accessor = .onebit
  edge : field.bitOffset = 31
  word : other.offset = field.offset
  isBit : other.isBit
  behind : 32 ≤ other.bitOffset

theorem Field.bit_bounds (isBit : field.isBit) :
    field.start = bitPerByte * field.offset + field.bitOffset ∧
      field.stop = bitPerByte * field.offset + field.bitOffset + field.bitSize := by
  simp [Field.start, Field.stop, isBit]

theorem Field.reachStop_edge (kind : field.accessor = .onebit) (edge : field.bitOffset = 31) :
    field.reachStop = bitPerByte * field.offset + 64 := by
  rw [Field.reachStop, if_pos ⟨kind, edge⟩]

theorem Field.reachStop_stop (noEdge : ¬ (field.accessor = .onebit ∧ field.bitOffset = 31)) :
    field.reachStop = field.stop := by
  rw [Field.reachStop, if_neg noEdge]

theorem WellLaid.shadowed (laid : WellLaid schema) (member : field ∈ schema)
    (otherMember : other ∈ schema) (kind : field.accessor = .onebit)
    (edge : field.bitOffset = 31) (behind : field.stop ≤ other.start)
    (before : other.start < field.reachStop) : Shadowed field other := by
  have isBit : field.isBit := by simp [Field.isBit, kind]
  have one := (laid.shaped field member).onebit kind
  obtain ⟨_, stop⟩ := Field.bit_bounds isBit
  have aligned := (laid.bits field member isBit).1
  rw [Field.reachStop_edge kind edge] at before
  by_cases otherBit : other.isBit
  · obtain ⟨otherAligned, inWord, _⟩ := laid.bits other otherMember otherBit
    have some := ((laid.shaped other otherMember).bits otherBit).1
    obtain ⟨otherStart, _⟩ := Field.bit_bounds otherBit
    simp only [bitPerByte, sizeofLong] at *
    exact ⟨kind, edge, by omega, otherBit, by omega⟩
  · have noBit : other.isBit = false := by simpa using otherBit
    have first := laid.bitsFirst field member other otherMember isBit noBit
    have otherStart := (other.bytes_reach noBit).1
    simp only [bitPerByte, sizeofLong] at *
    omega

theorem WellLaid.not_disjoint_edge (laid : WellLaid schema) (member : field ∈ schema)
    (otherMember : other ∈ schema) (different : field ≠ other)
    (kind : field.accessor = .onebit) (edge : field.bitOffset = 31)
    (conflict : ¬ field.Disjoint other) : Shadowed field other := by
  have isBit : field.isBit := by simp [Field.isBit, kind]
  rw [Field.Disjoint, not_or, not_le, not_le] at conflict
  rcases laid.apart field member other otherMember different with behind | before
  · exact laid.shadowed member otherMember kind edge behind conflict.1
  · -- the other field would end behind its own stop, so it is at bit 31 of an earlier word
    exfalso
    by_cases otherEdge : other.accessor = .onebit ∧ other.bitOffset = 31
    · have otherBit : other.isBit := by simp [Field.isBit, otherEdge.1]
      have aligned := (laid.bits field member isBit).1
      have otherAligned := (laid.bits other otherMember otherBit).1
      have one := (laid.shaped other otherMember).onebit otherEdge.1
      obtain ⟨start, _⟩ := Field.bit_bounds isBit
      obtain ⟨_, otherStop⟩ := Field.bit_bounds otherBit
      have reach := conflict.2
      rw [Field.reachStop_edge otherEdge.1 otherEdge.2] at reach
      simp only [bitPerByte, sizeofLong] at *
      omega
    · have reach := conflict.2
      rw [Field.reachStop_stop otherEdge] at reach
      omega

theorem WellLaid.not_disjoint (laid : WellLaid schema) (member : field ∈ schema)
    (otherMember : other ∈ schema) (different : field ≠ other)
    (conflict : ¬ field.Disjoint other) : Shadowed field other ∨ Shadowed other field := by
  by_cases edge : field.accessor = .onebit ∧ field.bitOffset = 31
  · exact .inl (laid.not_disjoint_edge member otherMember different edge.1 edge.2 conflict)
  · have flipped : ¬ other.Disjoint field := fun disjoint => conflict (Or.symm disjoint)
    by_cases otherEdge : other.accessor = .onebit ∧ other.bitOffset = 31
    · exact .inr (laid.not_disjoint_edge otherMember member (Ne.symm different) otherEdge.1
        otherEdge.2 flipped)
    · exfalso
      apply conflict
      rw [Field.Disjoint, Field.reachStop_stop edge, Field.reachStop_stop otherEdge]
      exact laid.apart field member other otherMember different

theorem WellLaid.bytes_disjoint (laid : WellLaid schema) (member : field ∈ schema)
    (otherMember : other ∈ schema) (different : field ≠ other) (noBit : field.isBit = false) :
    field.Disjoint other := by
  by_contra conflict
  rcases laid.not_disjoint member otherMember different conflict with shadow | shadow
  · simp [Field.isBit, shadow.onebit] at noBit
  · rw [shadow.isBit] at noBit
    cases noBit

theorem Shadowed.accessor (shadow : Shadowed field other) (readable : other.Readable) :
    other.accessor = .bit := by
  have isBit := shadow.isBit
  have behind := shadow.behind
  cases kind : other.accessor with
  | onebit =>
    have inInt := readable.onebit kind
    omega
  | bit => rfl
  | _ => simp [Field.isBit, kind] at isBit

theorem bitGetFunc_ne {record after : Record} (placed : other.Placed) (kind : other.accessor = .bit)
    (narrow : other.bitSize ≤ 30)
    (changed : (loadLong after other.offset).getLsbD other.bitOffset ≠
      (loadLong record other.offset).getLsbD other.bitOffset) :
    getFunc after other ≠ getFunc record other := by
  have isBit : other.isBit := by simp [Field.isBit, kind]
  have some := (placed.shaped.bits isBit).1
  have inWord := (placed.bits isBit).1
  intro same
  simp only [getFunc, kind, bitGetFunc, lowMask_eq narrow, Option.map_some, Option.some.injEq,
    Value.integer.injEq] at same
  have bit := congrArg (BitVec.getLsbD · 0) same
  simp only [getLsbD_bitRead narrow inWord, Nat.add_zero] at bit
  rw [decide_eq_true (by omega), Bool.true_and, Bool.true_and] at bit
  exact changed bit

theorem setFunc_zero {env : Environment} {value : CString} {record : Record}
    (kind : field.accessor = .onebit) (inInt : field.bitOffset ≤ 31)
    (zero : value.bytes = [48]) :
    setFunc env record field value = some (.success, storeLong record field.offset
      (loadLong record field.offset &&& ~~~((1#32 <<< field.bitOffset).signExtend 64))) := by
  simp only [setFunc, kind, onebitSetFunc, zero, if_true, shiftOne_eq inInt]

theorem setFunc_one {env : Environment} {value : CString} {record : Record}
    (kind : field.accessor = .onebit) (inInt : field.bitOffset ≤ 31)
    (one : value.bytes = [49]) :
    setFunc env record field value = some (.success, storeLong record field.offset
      (loadLong record field.offset ||| (1#32 <<< field.bitOffset).signExtend 64)) := by
  have notZero : ¬ value.bytes = [48] := by simp [one]
  simp only [setFunc, kind, onebitSetFunc, if_neg notZero, if_pos one, shiftOne_eq inInt]

theorem setFunc_bit {env : Environment} {value : CString} (record : Record)
    {number : BitVec 64} (kind : field.accessor = .bit) (narrow : field.bitSize ≤ 30)
    (parsed : dtIsNumber env.enums value = some (some number))
    (small : number.toInt < 2 ^ field.bitSize) :
    setFunc env record field value = some (.success, storeLong record field.offset
      ((loadLong record field.offset &&&
          ~~~(((1#32 <<< field.bitSize) - 1).signExtend 64 <<< field.bitOffset)) |||
        (number <<< field.bitOffset))) := by
  have accepted : ¬ ((1#32 <<< field.bitSize).signExtend 64).sle number = true := by
    rw [width_sle narrow]
    omega
  simp only [setFunc, kind, bitSetFunc, parsed, shiftOne_eq (show field.bitSize ≤ 31 by omega),
    lowMask_eq narrow, if_neg accepted]

theorem Shadowed.spoils {env : Environment} {value : CString} (shadow : Shadowed field other)
    (placed : field.Placed) (otherPlaced : other.Placed) (readable : other.Readable)
    (taken : value.bytes = [48] ∨ value.bytes = [49]) :
    ∃ record after, setFunc env record field value = some (.success, after) ∧
      getFunc after other ≠ getFunc record other := by
  have kind := shadow.accessor readable
  have narrow := readable.bit kind
  have inWord := (otherPlaced.bits shadow.isBit).1
  have some := (otherPlaced.shaped.bits shadow.isBit).1
  have inRecord := (placed.bits (by simp [Field.isBit, shadow.onebit])).2
  have bound : other.bitOffset < 64 := by omega
  have inInt : field.bitOffset ≤ 31 := shadow.edge.le
  have covered : ((1#32 <<< field.bitOffset).signExtend 64).getLsbD other.bitOffset = true := by
    rw [getLsbD_one inInt bound]
    simp only [decide_eq_true_eq]
    exact .inr ⟨shadow.edge, by have := shadow.behind; omega⟩
  rcases taken with zero | one
  · refine ⟨BitVec.allOnes 512, _, setFunc_zero shadow.onebit inInt zero,
      bitGetFunc_ne otherPlaced kind narrow ?_⟩
    rw [shadow.word, loadLong_storeLong inRecord, BitVec.getLsbD_and, BitVec.getLsbD_not,
      covered, getLsbD_loadLong bound, BitVec.getLsbD_allOnes]
    simp only [sizeofLong, maxDocattrElementSize] at inRecord
    rw [decide_eq_true (by simp only [bitPerByte]; omega)]
    simp
  · refine ⟨0, _, setFunc_one shadow.onebit inInt one,
      bitGetFunc_ne otherPlaced kind narrow ?_⟩
    rw [shadow.word, loadLong_storeLong inRecord, BitVec.getLsbD_or, covered,
      getLsbD_loadLong bound]
    simp

theorem Shadowed.reads (shadow : Shadowed field other) (record : Record) :
    getFunc record field = some (.integer (if loadLong record field.offset &&&
      (1#32 <<< 31).signExtend 64 ≠ 0 then 1 else 0)) := by
  simp only [getFunc, shadow.onebit, onebitGetFunc, shadow.edge,
    shiftOne_eq (le_refl 31), Option.map_some]

theorem Shadowed.reads_one (shadow : Shadowed field other) (record : Record) (index : Nat)
    (bound : index < 64) (behind : 32 ≤ index)
    (set : (loadLong record field.offset).getLsbD index = true) :
    getFunc record field = some (.integer 1) := by
  rw [shadow.reads, if_pos]
  intro zero
  have bit := congrArg (BitVec.getLsbD · index) zero
  simp only [BitVec.getLsbD_and, set, getLsbD_one (le_refl 31) bound, BitVec.ofNat_eq_ofNat,
    BitVec.getLsbD_zero] at bit
  simp only [true_and, Bool.true_and, decide_eq_false_iff_not] at bit
  omega

theorem Shadowed.reads_zero (shadow : Shadowed field other) (record : Record)
    (zero : loadLong record field.offset = 0) :
    getFunc record field = some (.integer 0) := by
  rw [shadow.reads, zero, if_neg]
  simp

theorem Shadowed.spoiled {env : Environment} {value : CString} {number : BitVec 64}
    (shadow : Shadowed other field) (placed : field.Placed) (readable : field.Readable)
    (parsed : dtIsNumber env.enums value = some (some number)) (natural : 0 ≤ number.toInt)
    (small : number.toInt < 2 ^ field.bitSize) :
    ∃ record after, setFunc env record field value = some (.success, after) ∧
      getFunc after other ≠ getFunc record other := by
  have kind := shadow.accessor readable
  have narrow := readable.bit kind
  obtain ⟨inWord, inRecord⟩ := placed.bits shadow.isBit
  have some := (placed.shaped.bits shadow.isBit).1
  have behind := shadow.behind
  have noBits : ∀ bit, field.bitSize ≤ bit → number.getLsbD bit = false := by
    intro bit behind
    apply getLsbD_small narrow natural _ behind
    rw [← Bool.not_eq_true, width_sle narrow]
    omega
  have stored := fun record => setFunc_bit record kind narrow parsed small
  by_cases zero : number = 0
  · -- a record in which only the lowest bit of the field is set
    let record := storeLong 0 field.offset (1#64 <<< field.bitOffset)
    have loaded : loadLong record field.offset = 1#64 <<< field.bitOffset :=
      loadLong_storeLong inRecord
    refine ⟨record, _, stored record, ?_⟩
    have isSet : (loadLong record other.offset).getLsbD field.bitOffset = true := by
      rw [← shadow.word, loaded, BitVec.getLsbD_shiftLeft]
      simp
      omega
    have cleared : loadLong (storeLong record field.offset ((loadLong record field.offset &&&
        ~~~(((1#32 <<< field.bitSize) - 1).signExtend 64 <<< field.bitOffset)) |||
          (number <<< field.bitOffset))) other.offset = 0 := by
      rw [← shadow.word, loadLong_storeLong inRecord, loaded]
      apply BitVec.eq_of_getLsbD_eq
      intro index bound
      rw [getLsbD_bitWord narrow bound noBits, zero]
      split
      · simp
      · rw [BitVec.getLsbD_shiftLeft]
        simp
        omega
    rw [shadow.reads_one record field.bitOffset (by omega) behind isSet,
      shadow.reads_zero _ cleared]
    simp
  · obtain ⟨bit, isSet⟩ : ∃ bit, number.getLsbD bit = true := by
      by_contra none
      apply zero
      apply BitVec.eq_of_getLsbD_eq
      intro index _
      simpa using fun isSet => none ⟨index, isSet⟩
    have inSize : bit < field.bitSize := by
      by_contra out
      rw [noBits bit (by omega)] at isSet
      cases isSet
    refine ⟨0, _, stored 0, ?_⟩
    have blank : loadLong 0 other.offset = 0 := by
      apply BitVec.eq_of_getLsbD_eq
      intro index bound
      rw [getLsbD_loadLong bound]
      simp
    rw [shadow.reads_zero 0 blank, shadow.reads_one _ (field.bitOffset + bit) (by omega) (by omega)]
    · simp
    · rw [← shadow.word, loadLong_storeLong inRecord, getLsbD_bitWord narrow (by omega) noBits,
        if_pos (by omega), Nat.add_sub_cancel_left, isSet]

end Conflicts

section Directions

variable {env : Environment} {schema : List Field} {name : List UInt8} {value : CString}

theorem returnDocattrField_mem {field : Field} (found : returnDocattrField schema name = some field) :
    field ∈ schema :=
  List.mem_of_find?_eq_some found

theorem readsAsBefore_self {record : Record} {field : Field} (readable : field.Readable) :
    ReadsAsBefore record record field := by
  obtain ⟨value, reads⟩ := (getFunc_readable record).mpr readable
  exact ⟨value, reads, reads⟩

theorem Tolerates.disjoint {field other : Field} {record after : Record} (laid : WellLaid schema)
    (member : field ∈ schema) (otherMember : other ∈ schema) (different : other ≠ field)
    (readable : field.Readable) (tolerates : Tolerates env schema field value)
    (taken : setFunc env record field value = some (.success, after)) :
    field.Disjoint other := by
  by_cases isBit : field.isBit
  · apply tolerates.clear _ other otherMember different
    cases kind : field.accessor with
    | onebit =>
      simp only [setFunc, kind, onebitSetFunc] at taken
      by_cases zero : value.bytes = [48]
      · exact .inl ⟨kind, .inl zero⟩
      · by_cases one : value.bytes = [49]
        · exact .inl ⟨kind, .inr one⟩
        · simp [zero, one] at taken
    | bit =>
      have narrow := readable.bit kind
      simp only [setFunc, kind, bitSetFunc] at taken
      cases parsed : dtIsNumber env.enums value with
      | none => simp [parsed] at taken
      | some result =>
        cases result with
        | none => simp [parsed] at taken
        | some number =>
          refine .inr ⟨kind, number, parsed, ?_⟩
          by_contra large
          rw [not_lt, ← width_sle narrow] at large
          simp [parsed, shiftOne_eq (show field.bitSize ≤ 31 by omega), large] at taken
    | _ => simp [Field.isBit, kind] at isBit
  · exact laid.bytes_disjoint member otherMember (Ne.symm different) (by simpa using isBit)

theorem Safe.independent (laid : WellLaid schema) (safe : Safe env schema name value) :
    Independent env schema name value := by
  intro record
  rw [setDocattrFunction]
  cases found : returnDocattrField schema name with
  | none =>
    refine ⟨.fail, record, rfl, by simp, ?_⟩
    intro _ other member
    exact readsAsBefore_self (safe.1 other member)
  | some field =>
    have member := returnDocattrField_mem found
    have tolerates := safe.2 field found
    rcases setFunc_returns record (laid.placed member) (safe.1 field member)
      tolerates with ⟨after, taken, stored⟩ | refused
    · refine ⟨.success, after, taken, ?_, by simp⟩
      intro _
      obtain ⟨expected, isExpected, reads⟩ := stored.reads
      refine ⟨field, expected, rfl, isExpected, reads, ?_⟩
      intro other otherMember different
      have disjoint := tolerates.disjoint laid member otherMember different
        (safe.1 field member) taken
      obtain ⟨old, oldReads⟩ := (getFunc_readable record).mpr (safe.1 other otherMember)
      refine ⟨old, oldReads, ?_⟩
      rw [← oldReads]
      apply getFunc_congr (laid.placed otherMember)
      intro index behind before
      apply stored.frame
      rcases disjoint with left | right <;> omega
    · refine ⟨.fail, record, refused, by simp, ?_⟩
      intro _ other otherMember
      exact readsAsBefore_self (safe.1 other otherMember)

theorem Independent.readable (independent : Independent env schema name value) :
    ∀ field ∈ schema, field.Readable := by
  intro field member
  obtain ⟨ret, after, _, success, fail⟩ := independent 0
  cases ret with
  | success =>
    obtain ⟨set, expected, _, _, reads, others⟩ := success rfl
    by_cases isSet : field = set
    · subst isSet
      exact (getFunc_readable _).mp ⟨expected, reads⟩
    · obtain ⟨old, oldReads, _⟩ := others field member isSet
      exact (getFunc_readable _).mp ⟨old, oldReads⟩
  | fail =>
    obtain ⟨old, oldReads, _⟩ := fail rfl field member
    exact (getFunc_readable _).mp ⟨old, oldReads⟩

theorem Independent.taken {field : Field} {record after : Record}
    (independent : Independent env schema name value)
    (found : returnDocattrField schema name = some field)
    (taken : setFunc env record field value = some (.success, after)) :
    (∃ expected, expectedValue env field value = some expected ∧
      getFunc after field = some expected) ∧
      ∀ other ∈ schema, other ≠ field → getFunc after other = getFunc record other := by
  obtain ⟨ret, result, run, success, _⟩ := independent record
  rw [setDocattrFunction, found] at run
  simp only [taken, Option.some.injEq, Prod.mk.injEq] at run
  obtain ⟨rfl, rfl⟩ := run
  obtain ⟨set, expected, isSet, isExpected, reads, others⟩ := success rfl
  rw [found] at isSet
  cases isSet
  refine ⟨⟨expected, isExpected, reads⟩, ?_⟩
  intro other member different
  obtain ⟨old, before, now⟩ := others other member different
  rw [before, now]

theorem Independent.tolerates {field : Field} (laid : WellLaid schema)
    (independent : Independent env schema name value)
    (found : returnDocattrField schema name = some field) :
    Tolerates env schema field value := by
  have member := returnDocattrField_mem found
  have placed := laid.placed member
  have readable := independent.readable field member
  have natural : field.accessor = .bit → ∀ number,
      dtIsNumber env.enums value = some (some number) → 0 ≤ number.toInt := by
    intro kind number parsed
    by_contra negative
    have narrow := readable.bit kind
    have small : number.toInt < 2 ^ field.bitSize :=
      lt_of_lt_of_le (lt_of_not_ge negative) (by positivity)
    obtain ⟨⟨expected, isExpected, reads⟩, _⟩ :=
      independent.taken found (setFunc_bit 0 kind narrow parsed small)
    simp only [expectedValue, kind, parsed, Option.some.injEq] at isExpected
    subst isExpected
    simp only [getFunc, kind, bitGetFunc, lowMask_eq narrow, Option.map_some, Option.some.injEq,
      Value.integer.injEq] at reads
    have sign := congrArg (BitVec.getLsbD · 63) reads
    simp only [BitVec.getLsbD_and, getLsbD_mask narrow, decide_eq_false (show ¬ 63 < field.bitSize by omega),
      Bool.and_false] at sign
    apply negative
    rw [BitVec.toInt_eq_msb_cond, BitVec.msb_eq_getLsbD_last, ← sign]
    simp
  constructor
  · intro notString notMd5 notOnebit
    obtain ⟨ret, after, run, _⟩ := independent 0
    rw [setDocattrFunction, found] at run
    by_contra long
    have none := (dtIsNumber_none_iff env.enums value).mpr (by omega)
    cases kind : field.accessor <;> simp_all [setFunc, setNumber, bitSetFunc]
  · intro kind number parsed
    have taken : setFunc env 0 field value = some (.success,
        Bits.store 0 (bitPerByte * field.offset) (number.setWidth 32)) := by
      simp [setFunc, kind, setNumber, parsed]
    obtain ⟨⟨expected, isExpected, reads⟩, _⟩ := independent.taken found taken
    have isNumber : IsNumber env field value 32 := .of_accessor placed (.inr (.inl ⟨kind, rfl⟩))
    rw [number_reads number placed isNumber] at reads
    rw [isNumber.expects number parsed] at isExpected
    cases isExpected
    rw [← fits_int32]
    simpa using reads
  · exact natural
  · intro accepts other otherMember different
    by_contra conflict
    have otherReadable := independent.readable other otherMember
    have spoiled : ∃ record after, setFunc env record field value = some (.success, after) ∧
        getFunc after other ≠ getFunc record other := by
      rcases laid.not_disjoint member otherMember (Ne.symm different) conflict with shadow | shadow
      · rcases accepts with ⟨_, taken⟩ | ⟨kind, _⟩
        · exact shadow.spoils placed (laid.placed otherMember) otherReadable taken
        · rw [shadow.onebit] at kind
          cases kind
      · have isBit := shadow.accessor readable
        rcases accepts with ⟨kind, _⟩ | ⟨_, number, parsed, small⟩
        · rw [isBit] at kind
          cases kind
        · exact shadow.spoiled placed readable parsed (natural isBit number parsed) small
    obtain ⟨record, after, taken, changed⟩ := spoiled
    exact changed ((independent.taken found taken).2 other otherMember different)

theorem Independent.safe (laid : WellLaid schema)
    (independent : Independent env schema name value) : Safe env schema name value :=
  ⟨independent.readable, fun _ found => independent.tolerates laid found⟩

end Directions

/-! Schemas as `add_docattr_field` and `build_field_offset` accept them. -/

theorem integerShape_shaped {size : Int} {shape : Shape} (isShape : integerShape size = some shape)
    (name : List UInt8) : Field.Shaped ⟨name, shape.accessor, 0, shape.size, 0, shape.bitSize⟩ := by
  simp only [integerShape] at isShape
  generalize (if size = 0 then ((sizeofLong : Nat) : Int) else size) = actual at isShape
  split at isShape
  · cases isShape
    constructor <;> simp [Field.isBit]
  · split at isShape
    · cases isShape
      constructor <;> simp [Field.isBit]
    · split at isShape
      · cases isShape
        constructor <;> simp [Field.isBit]
      · split at isShape
        · cases isShape
          constructor <;> simp [Field.isBit]
        · cases isShape

theorem checkNumberInRange_success {number low high : Int}
    (inRange : checkNumberInRange number low high = .success) : low ≤ number ∧ number ≤ high := by
  rw [checkNumberInRange] at inRange
  split at inRange
  · cases inRange
  · split at inRange
    · cases inRange
    · omega

theorem fieldShape_shaped {type : FieldType} {size : Int} {shape : Shape}
    (isShape : fieldShape type size = some shape) (name : List UInt8) :
    Field.Shaped ⟨name, shape.accessor, 0, shape.size, 0, shape.bitSize⟩ := by
  cases type with
  | string =>
    simp only [fieldShape] at isShape
    split at isShape
    case h_1 inRange =>
      have positive := (checkNumberInRange_success inRange).1
      cases isShape
      constructor <;> simp [Field.isBit]
      omega
    case h_2 => cases isShape
  | integer => exact integerShape_shaped isShape name
  | enum => exact integerShape_shaped isShape name
  | bit =>
    simp only [fieldShape] at isShape
    split at isShape
    case h_1 inRange =>
      obtain ⟨positive, narrow⟩ := checkNumberInRange_success inRange
      simp only [maxBitSize] at narrow
      split at isShape
      · cases isShape
        constructor <;> simp [Field.isBit]
      · split at isShape
        · exact integerShape_shaped isShape name
        · cases isShape
          constructor <;> simp [Field.isBit]
          omega
    case h_2 => cases isShape
  | md5 =>
    cases isShape
    constructor <;> simp [Field.isBit, sizeofLong]
  | unknown => cases isShape

theorem addDocattrField_shaped {schema added : List Field} {name : CString} {type : FieldType}
    {size : Int} (shaped : ∀ field ∈ schema, field.Shaped)
    (run : addDocattrField schema name type size = some (.success, added)) :
    ∀ field ∈ added, field.Shaped := by
  rw [addDocattrField] at run
  split at run
  · cases run
  · split at run
    · cases run
    · split at run
      · cases run
      · split at run
        case h_1 => cases run
        case h_2 shape isShape =>
          cases run
          intro field member
          rcases List.mem_append.mp member with old | new
          · exact shaped field old
          · rw [List.mem_singleton] at new
            subst new
            exact fieldShape_shaped isShape name.bytes

theorem addDocattrFields_shaped {schema added : List Field}
    {definitions : List (CString × FieldType × Int)} (shaped : ∀ field ∈ schema, field.Shaped)
    (run : addDocattrFields schema definitions = some added) : ∀ field ∈ added, field.Shaped := by
  induction definitions generalizing schema with
  | nil =>
    cases run
    exact shaped
  | cons definition definitions induction =>
    obtain ⟨name, type, size⟩ := definition
    rw [addDocattrFields] at run
    split at run
    case h_1 next step => exact induction (addDocattrField_shaped shaped step) run
    case h_2 => cases run

/-- A schema with a kind of two bits and, behind it, a flag of one bit. -/
def flagged : List Field :=
  [⟨[75], .bit, 0, 8, 0, 2⟩, ⟨[70], .onebit, 0, 8, 2, 1⟩]

/-- The fields of `flagged` before `build_field_offset`. -/
def flaggedFields : List Field :=
  [⟨[75], .bit, 0, 8, 0, 2⟩, ⟨[70], .onebit, 0, 8, 0, 1⟩]

def flaggedDefinitions : List (CString × FieldType × Int) :=
  [(⟨[75], by decide⟩, .bit, 2), (⟨[70], by decide⟩, .bit, 1)]

def plainEnvironment : Environment := ⟨[], fun _ => 0⟩

end Wisebot.Docattr
