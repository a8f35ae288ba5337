import Mathlib.Data.List.Dedup
import Wisebot.Docattr.Independence
import Wisebot.Docattr.Masks

namespace Wisebot.Docattr

open Wisebot.Lib

/-! Applying a mask compared with setting the fields in the record itself. -/

section Runs

variable {env : Environment} {schema : List Field} {pairs : List (List UInt8 × CString)}

def Named (schema : List Field) (pairs : List (List UInt8 × CString)) (index : Nat) : Prop :=
  ∃ pair ∈ pairs, ∃ field, returnDocattrField schema pair.1 = some field ∧ field.Covers index

/-- The bit is one that a negative number sets behind its field. -/
def Spilled (env : Environment) (schema : List Field) (pairs : List (List UInt8 × CString))
    (index : Nat) : Prop :=
  ∃ pair ∈ pairs, ∃ field, returnDocattrField schema pair.1 = some field ∧
    spills env field pair.2 index = true

/-- The calls can be made on every record: what they leave in the fields that are
set does not depend on it, and elsewhere bits are set only. -/
def WritesAll (env : Environment) (schema : List Field)
    (pairs : List (List UInt8 × CString)) : Prop :=
  ∃ given : Nat → Prop, ∀ record, ∃ after, setDocattrs env schema record pairs = some after ∧
    ∀ index < 512,
      (Named schema pairs index → (after.getLsbD index = true ↔ given index)) ∧
      (¬Named schema pairs index → (after.getLsbD index = true ↔
        record.getLsbD index = true ∨ Spilled env schema pairs index))

theorem named_cons {name : List UInt8} {value : CString} {field : Field} {index : Nat}
    (found : returnDocattrField schema name = some field) :
    Named schema ((name, value) :: pairs) index ↔
      field.Covers index ∨ Named schema pairs index := by
  simp [Named, found]

theorem spilled_cons {name : List UInt8} {value : CString} {field : Field} {index : Nat}
    (found : returnDocattrField schema name = some field) :
    Spilled env schema ((name, value) :: pairs) index ↔
      spills env field value index = true ∨ Spilled env schema pairs index := by
  simp [Spilled, found]

theorem WritesAll.cons {name : List UInt8} {value : CString} {field : Field}
    (found : returnDocattrField schema name = some field) (writes : Writes env field value)
    (others : WritesAll env schema pairs) : WritesAll env schema ((name, value) :: pairs) := by
  obtain ⟨given, first⟩ := writes
  obtain ⟨givenOthers, rest⟩ := others
  refine ⟨fun index => (Named schema pairs index ∧ givenOthers index) ∨
    (¬Named schema pairs index ∧ (given index = true ∨ Spilled env schema pairs index)),
    fun record => ?_⟩
  obtain ⟨next, set, nextBits⟩ := first record
  obtain ⟨after, setOthers, afterBits⟩ := rest next
  refine ⟨after, ?_, fun index bound => ?_⟩
  · rw [setDocattrs, setDocattrFunction]
    simp only [found, set]
    exact setOthers
  · obtain ⟨named, unnamed⟩ := afterBits index bound
    obtain ⟨covered, uncovered⟩ := nextBits index bound
    rw [named_cons found, spilled_cons found]
    by_cases isNamed : Named schema pairs index
    · rw [named isNamed]
      exact ⟨fun _ => by simp [isNamed], fun noName => absurd (Or.inr isNamed) noName⟩
    · rw [unnamed isNamed]
      by_cases isCovered : field.Covers index
      · rw [covered isCovered]
        exact ⟨fun _ => by simp [isNamed], fun noName => absurd (Or.inl isCovered) noName⟩
      · rw [uncovered isCovered, Bool.or_eq_true, or_assoc]
        exact ⟨fun isName => absurd isName (not_or.mpr ⟨isCovered, isNamed⟩), fun _ => Iff.rfl⟩

theorem writesAll_nil : WritesAll env schema [] := by
  refine ⟨fun _ => False, fun record => ⟨record, rfl, fun index _ => ⟨?_, fun _ => ?_⟩⟩⟩
  · rintro ⟨_, member, _⟩
    exact absurd member List.not_mem_nil
  · simp [Spilled]

end Runs

section Ids

def enteredIds (ids : List Nat) : List Nat → List Nat
  | [] => ids
  | id :: rest => enteredIds (if id ∈ ids then ids else ids ++ [id]) rest

def idList (ids : List Nat) : List Int :=
  (ids.map Int.ofNat ++ List.replicate maxDocattrField (-1)).take maxDocattrField

theorem enterId_replicate (fieldId : Nat) (ids : List Nat) (free : Nat) :
    enterId fieldId (ids.map Int.ofNat ++ List.replicate free (-1)) =
      if fieldId ∈ ids ∨ free = 0 then ids.map Int.ofNat ++ List.replicate free (-1)
      else ids.map Int.ofNat ++ (fieldId : Int) :: List.replicate (free - 1) (-1) := by
  induction ids with
  | nil =>
    cases free with
    | zero => rfl
    | succ free => rfl
  | cons id ids ih =>
    rw [List.map_cons, List.cons_append, enterId, if_neg (by simp)]
    by_cases same : id = fieldId
    · rw [if_pos (by simp [same]), if_pos (by simp [same])]
    · have notHead : fieldId ∈ id :: ids ↔ fieldId ∈ ids := by
        simp [Ne.symm same]
      rw [if_neg (by simpa using same), ih]
      simp only [notHead]
      split
      · rfl
      · rfl

theorem idList_short {ids : List Nat} (short : ids.length ≤ maxDocattrField) :
    idList ids =
      ids.map Int.ofNat ++ List.replicate (maxDocattrField - ids.length) (-1) := by
  rw [idList, List.take_append, List.take_of_length_le (by rw [List.length_map]; exact short),
    List.take_replicate, List.length_map, Nat.min_eq_left (Nat.sub_le _ _)]

theorem idList_full {ids : List Nat} (full : maxDocattrField ≤ ids.length) :
    idList ids = (ids.take maxDocattrField).map Int.ofNat := by
  rw [idList, List.take_append_of_le_length (by rw [List.length_map]; exact full),
    List.map_take]

theorem enterId_idList (fieldId : Nat) (ids : List Nat) :
    enterId fieldId (idList ids) =
      idList (if fieldId ∈ ids then ids else ids ++ [fieldId]) := by
  by_cases room : ids.length < maxDocattrField
  · rw [idList_short room.le, enterId_replicate]
    by_cases isThere : fieldId ∈ ids
    · rw [if_pos (Or.inl isThere), if_pos isThere, idList_short room.le]
    · have length : (ids ++ [fieldId]).length ≤ maxDocattrField := by
        rw [List.length_append, List.length_singleton]
        exact room
      have noPlace : ¬(fieldId ∈ ids ∨ maxDocattrField - ids.length = 0) :=
        not_or.mpr ⟨isThere, Nat.sub_ne_zero_of_lt room⟩
      rw [if_neg noPlace, if_neg isThere, idList_short length, List.map_append,
        List.append_assoc, List.length_append, Nat.sub_sub]
      rfl
  · have full := Nat.le_of_not_lt room
    have kept := enterId_replicate fieldId (ids.take maxDocattrField) 0
    rw [List.replicate_zero, List.append_nil, if_pos (Or.inr rfl), ← idList_full full] at kept
    rw [kept]
    split
    · rfl
    · rw [idList_full full, idList_full
        (full.trans (by rw [List.length_append]; exact Nat.le_add_right _ _)),
        List.take_append_of_le_length full]

theorem mem_enteredIds {id : Nat} (rest : List Nat) :
    ∀ {ids : List Nat}, id ∈ enteredIds ids rest ↔ id ∈ ids ∨ id ∈ rest := by
  induction rest with
  | nil =>
    intro ids
    simp [enteredIds]
  | cons head rest ih =>
    intro ids
    rw [enteredIds, ih, List.mem_cons]
    split
    · rename_i isThere
      constructor
      · exact fun member => member.imp_right Or.inr
      · rintro (inIds | rfl | inRest)
        · exact Or.inl inIds
        · exact Or.inl isThere
        · exact Or.inr inRest
    · rw [List.mem_append, List.mem_singleton, or_assoc]

theorem nodup_enteredIds (rest : List Nat) :
    ∀ {ids : List Nat}, ids.Nodup → (enteredIds ids rest).Nodup := by
  induction rest with
  | nil => exact id
  | cons head rest ih =>
    intro ids distinct
    rw [enteredIds]
    split
    · exact ih distinct
    · rename_i isNew
      refine ih (distinct.append (List.nodup_singleton _) ?_)
      rw [List.disjoint_singleton]
      exact isNew

theorem length_enteredIds (ids : List Nat) :
    (enteredIds [] ids).length = ids.dedup.length := by
  refine List.Perm.length_eq ?_
  rw [List.perm_ext_iff_of_nodup (nodup_enteredIds ids List.nodup_nil) (List.nodup_dedup ids)]
  intro id
  rw [mem_enteredIds, List.mem_dedup]
  simp

end Ids

section Building

variable {env : Environment} {schema : List Field} {field : Field} {value : CString}

theorem schema_docattrFieldId (schema : List Field) (name : List UInt8) :
    schema[docattrFieldId schema name]? = returnDocattrField schema name := by
  rw [docattrFieldId, returnDocattrField]
  exact (List.find?_eq_getElem?_findIdx).symm

/-- A field of bits that has been set is not too wide for the constant of its size. -/
theorem narrow_of_success {record after : Record} (placed : field.Placed)
    (set : setFunc env record field value = some (.success, after)) (isBit : field.isBit) :
    field.bitSize ≤ 30 := by
  rw [setFunc] at set
  cases kind : field.accessor with
  | onebit => exact (placed.shaped.onebit kind).le.trans (by decide)
  | bit =>
    by_contra wide
    simp only [kind, bitSetFunc, lowMask_none (Nat.lt_of_not_le wide)] at set
    split at set
    · cases set
    · cases set
    · split at set
      · cases set
      · split at set
        · cases set
        · cases set
  | _ => simp [Field.isBit, kind] at isBit

structure Settable (field : Field) : Prop where
  placed : field.Placed
  low : field.isBit → field.bitOffset + field.bitSize ≤ 31
  narrow : field.isBit → field.bitSize ≤ 30

def GeneralMask.ids (mask : GeneralMask) : List Int :=
  if mask.init then mask.id else List.replicate maxDocattrField (-1)

/-- Building a mask is setting the fields of an empty record, with a list of their
ids. -/
structure Records (env : Environment) (schema : List Field) (mask : GeneralMask) (ids : List Nat)
    (pairs : List (List UInt8 × CString)) (after : GeneralMask) : Prop where
  writes : WritesAll env schema pairs
  settable : ∀ pair ∈ pairs, ∃ field, returnDocattrField schema pair.1 = some field ∧
    Settable field
  docattr : setDocattrs env schema mask.docattr pairs = some after.docattr
  ids : after.ids = idList (enteredIds ids (pairs.map fun pair => docattrFieldId schema pair.1))
  init : after.init = false → pairs = []

theorem setDocmasks_records (laid : WellLaid schema) (low : Low schema)
    (pairs : List (List UInt8 × CString)) :
    ∀ {mask after : GeneralMask} {ids : List Nat}, mask.ids = idList ids →
      setDocmasks env schema mask pairs = some after →
      Records env schema mask ids pairs after := by
  induction pairs with
  | nil =>
    intro mask after ids isIds built
    cases built
    exact ⟨writesAll_nil, fun _ member => absurd member List.not_mem_nil, rfl, isIds,
      fun _ => rfl⟩
  | cons pair pairs ih =>
    intro mask after ids isIds built
    obtain ⟨name, value⟩ := pair
    rw [setDocmasks, setDocmaskFunction] at built
    cases found : returnDocattrField schema name with
    | none =>
      simp only [found] at built
      cases built
    | some field =>
      have member : field ∈ schema := returnDocattrField_mem found
      have placed := laid.placed member
      simp only [found] at built
      cases set : setFunc env mask.docattr field value with
      | none =>
        simp only [set] at built
        cases built
      | some result =>
        obtain ⟨ret, docattr⟩ := result
        cases ret with
        | fail =>
          simp only [set] at built
          cases built
        | success =>
          simp only [set] at built
          have entered : (if mask.init then mask.id
              else List.replicate maxDocattrField (-1)) = idList ids := isIds
          rw [entered, enterId_idList] at built
          have nextIds : (GeneralMask.mk true (idList (if docattrFieldId schema name ∈ ids
              then ids else ids ++ [docattrFieldId schema name])) docattr).ids =
              idList _ := rfl
          have next := ih nextIds built
          have isSettable : Settable field :=
            ⟨placed, low field member, narrow_of_success placed set⟩
          refine ⟨next.writes.cons found (setFunc_writes placed isSettable.low set),
            ?_, ?_, next.ids, fun fresh => ?_⟩
          · intro pair inPairs
            rcases List.mem_cons.mp inPairs with rfl | inRest
            · exact ⟨field, found, isSettable⟩
            · exact next.settable pair inRest
          · rw [setDocattrs, setDocattrFunction]
            simp only [found, set]
            exact next.docattr
          · have noPairs := next.init fresh
            subst noPairs
            cases built
            cases fresh

end Building

section Applying

variable {schema : List Field} {field : Field}

theorem getLsbD_lowMask {size index : Nat} (narrow : size ≤ 30) (bound : index < 32) :
    ((1#32 <<< size) - 1).getLsbD index = decide (index < size) := by
  have all : ∀ size : Fin 31, ∀ index : Fin 32,
      ((1#32 <<< size.val) - 1).getLsbD index = decide (index.val < size.val) := by
    decide +kernel
  exact all ⟨size, by omega⟩ ⟨index, bound⟩

theorem toNat_lowMask {size : Nat} (narrow : size ≤ 30) :
    ((1#32 <<< size) - 1).toNat < 2 ^ size := by
  have all : ∀ size : Fin 31, ((1#32 <<< size.val) - 1).toNat < 2 ^ size.val := by
    decide +kernel
  exact all ⟨size, by omega⟩

theorem bitMask_spec (low : field.bitOffset + field.bitSize ≤ 31) (narrow : field.bitSize ≤ 30) :
    ∃ mask, bitMask field = some mask ∧ ∀ bit < 64, mask.getLsbD bit =
      decide (field.bitOffset ≤ bit ∧ bit < field.bitOffset + field.bitSize) := by
  have small : ((1#32 <<< field.bitSize) - 1).toNat * 2 ^ field.bitOffset < 2 ^ 31 :=
    calc ((1#32 <<< field.bitSize) - 1).toNat * 2 ^ field.bitOffset
        < 2 ^ field.bitSize * 2 ^ field.bitOffset :=
          Nat.mul_lt_mul_of_pos_right (toNat_lowMask narrow) (Nat.two_pow_pos _)
      _ = 2 ^ (field.bitSize + field.bitOffset) := (Nat.pow_add 2 _ _).symm
      _ ≤ 2 ^ 31 := Nat.pow_le_pow_right (by decide) (by omega)
  refine ⟨(((1#32 <<< field.bitSize) - 1) <<< field.bitOffset).signExtend 64, ?_,
    fun bit bound => ?_⟩
  · rw [bitMask, lowMask_eq narrow]
    simp only
    rw [if_pos small]
  · have top : (((1#32 <<< field.bitSize) - 1) <<< field.bitOffset).msb = false := by
      rw [BitVec.msb_eq_getLsbD_last, BitVec.getLsbD_shiftLeft,
        getLsbD_lowMask narrow (by omega),
        decide_eq_false (show ¬32 - 1 - field.bitOffset < field.bitSize by omega), Bool.and_false]
    rw [BitVec.getLsbD_signExtend, top, decide_eq_true bound, Bool.true_and]
    by_cases inInt : bit < 32
    · rw [if_pos inInt, BitVec.getLsbD_shiftLeft, getLsbD_lowMask narrow (by omega),
        decide_eq_true inInt, Bool.true_and]
      by_cases before : bit < field.bitOffset
      · simp [before]
      · simp only [before, decide_false, Bool.not_false, Bool.true_and]
        congr 1
        rw [eq_iff_iff]
        omega
    · rw [if_neg inInt, decide_eq_false]
      omega

theorem maskField_spec (settable : Settable field) (source dest : Record) :
    ∃ after, maskField source dest field = some after ∧ ∀ index < 512,
      (field.Covers index → after.getLsbD index = source.getLsbD index) ∧
      (¬field.Covers index → after.getLsbD index = dest.getLsbD index) := by
  by_cases isBit : field.isBit
  · obtain ⟨mask, isMask, maskBits⟩ := bitMask_spec (settable.low isBit) (settable.narrow isBit)
    refine ⟨storeLong dest field.offset
      ((loadLong dest field.offset &&& ~~~mask) ||| (loadLong source field.offset &&& mask)),
      by rw [maskField, if_pos isBit, isMask]; rfl, fun index bound => ?_⟩
    have inWord := settable.low isBit
    have range : field.Covers index ↔ bitPerByte * field.offset + field.bitOffset ≤ index ∧
        index < bitPerByte * field.offset + field.bitOffset + field.bitSize := by
      simp [Field.Covers, Field.start, Field.stop, isBit]
    rw [range, storeLong, Bits.getLsbD_store bound]
    by_cases here : bitPerByte * field.offset ≤ index ∧ index < bitPerByte * field.offset + 64
    · have isIndex : bitPerByte * field.offset + (index - bitPerByte * field.offset) = index :=
        Nat.add_sub_cancel' here.1
      have inside : index - bitPerByte * field.offset < 64 := by omega
      rw [if_pos here, BitVec.getLsbD_or, BitVec.getLsbD_and, BitVec.getLsbD_and,
        BitVec.getLsbD_not, getLsbD_loadLong inside, getLsbD_loadLong inside, isIndex,
        maskBits _ inside, decide_eq_true inside, Bool.true_and]
      constructor
      · intro within
        rw [decide_eq_true (by omega)]
        simp
      · intro outside
        rw [decide_eq_false (by omega)]
        simp
    · rw [if_neg here]
      exact ⟨fun within => absurd within (by omega), fun _ => rfl⟩
  · have noBit : field.isBit = false := by simpa using isBit
    refine ⟨_, by rw [maskField, if_neg isBit], fun index bound => ?_⟩
    rw [Field.covers_bytes noBit, Bits.getLsbD_store bound, Nat.mul_add]
    refine ⟨fun within => ?_, fun outside => if_neg outside⟩
    rw [if_pos within, Bits.load, BitVec.getLsbD_extractLsb', decide_eq_true (by omega),
      Bool.true_and, Nat.add_sub_cancel' within.1]

theorem maskFields_full (schema : List Field) (source : Record) (ids : List Nat) :
    ∀ record, maskFields schema source (ids.map Int.ofNat) record = none := by
  induction ids with
  | nil => exact fun _ => rfl
  | cons id ids ih =>
    intro record
    rw [List.map_cons, maskFields, if_neg (by simp)]
    split
    · rfl
    · rename_i field _
      cases masked : maskField source record field with
      | none => rfl
      | some next => exact ih next

theorem maskFields_spec (source : Record) (rest : List Int) (ids : List Nat) :
    ∀ record, (∀ id ∈ ids, ∃ field, schema[id]? = some field ∧ Settable field) →
      ∃ after, maskFields schema source (ids.map Int.ofNat ++ (-1) :: rest) record = some after ∧
        ∀ index < 512,
          ((∃ id ∈ ids, ∃ field, schema[id]? = some field ∧ field.Covers index) →
            after.getLsbD index = source.getLsbD index) ∧
          (¬(∃ id ∈ ids, ∃ field, schema[id]? = some field ∧ field.Covers index) →
            after.getLsbD index = record.getLsbD index) := by
  induction ids with
  | nil =>
    intro record _
    refine ⟨record, rfl, fun index _ => ⟨?_, fun _ => rfl⟩⟩
    rintro ⟨_, member, _⟩
    exact absurd member List.not_mem_nil
  | cons id ids ih =>
    intro record settable
    obtain ⟨field, isField, isSettable⟩ := settable id List.mem_cons_self
    obtain ⟨next, masked, nextBits⟩ := maskField_spec isSettable source record
    obtain ⟨after, others, afterBits⟩ := ih next fun other member =>
      settable other (List.mem_cons_of_mem _ member)
    refine ⟨after, ?_, fun index bound => ?_⟩
    · rw [List.map_cons, List.cons_append, maskFields, if_neg (by simp)]
      simp only [Int.ofNat_eq_natCast, Int.toNat_natCast, isField, masked, Option.bind_some]
      exact others
    · obtain ⟨taken, kept⟩ := afterBits index bound
      obtain ⟨covered, uncovered⟩ := nextBits index bound
      by_cases inRest : ∃ id ∈ ids, ∃ field, schema[id]? = some field ∧ field.Covers index
      · refine ⟨fun _ => taken inRest, fun nowhere => absurd ?_ nowhere⟩
        obtain ⟨other, member, isThere⟩ := inRest
        exact ⟨other, List.mem_cons_of_mem _ member, isThere⟩
      · rw [kept inRest]
        by_cases here : field.Covers index
        · refine ⟨fun _ => covered here, fun nowhere => absurd ?_ nowhere⟩
          exact ⟨id, List.mem_cons_self, field, isField, here⟩
        · refine ⟨?_, fun _ => uncovered here⟩
          rintro ⟨other, member, otherField, isOther, isThere⟩
          rcases List.mem_cons.mp member with rfl | inIds
          · rw [isField] at isOther
            cases isOther
            exact absurd isThere here
          · exact absurd ⟨other, inIds, otherField, isOther, isThere⟩ inRest

theorem named_iff_entered {pairs : List (List UInt8 × CString)} {index : Nat} :
    (∃ id ∈ enteredIds [] (pairs.map fun pair => docattrFieldId schema pair.1),
      ∃ field, schema[id]? = some field ∧ field.Covers index) ↔ Named schema pairs index := by
  simp only [mem_enteredIds, List.not_mem_nil, false_or, List.mem_map, Named]
  constructor
  · rintro ⟨_, ⟨pair, member, rfl⟩, field, isField, covers⟩
    rw [schema_docattrFieldId] at isField
    exact ⟨pair, member, field, isField, covers⟩
  · rintro ⟨pair, member, field, isField, covers⟩
    exact ⟨_, ⟨pair, member, rfl⟩, field, by rw [schema_docattrFieldId]; exact isField, covers⟩

end Applying

/-- A mask changes a record like the calls it was built with exactly when it has
fewer fields than there is room for, and no negative number sets a bit that is clear
in the record and belongs to none of its fields. -/
theorem maskFunction_direct_iff {env : Environment} {schema : List Field}
    {pairs : List (List UInt8 × CString)} {mask : GeneralMask} (laid : WellLaid schema)
    (low : Low schema) (built : setDocmasks env schema .zero pairs = some mask)
    (record : Record) :
    (∃ updated, maskFunction schema record mask = some (.success, updated) ∧
      setDocattrs env schema record pairs = some updated) ↔
    (pairs.map fun pair => docattrFieldId schema pair.1).dedup.length < maxDocattrField ∧
      ∀ index < 512, Spilled env schema pairs index → ¬Named schema pairs index →
        record.getLsbD index = true := by
  have noIds : GeneralMask.zero.ids = idList [] := rfl
  have records := setDocmasks_records laid low pairs noIds built
  cases init : mask.init with
  | false =>
    have noPairs := records.init init
    subst noPairs
    rw [maskFunction, if_neg (by simp [init])]
    refine ⟨fun _ => ⟨show 0 < maxDocattrField by decide, fun index _ => ?_⟩,
      fun _ => ⟨record, rfl, rfl⟩⟩
    rintro ⟨_, member, _⟩
    exact absurd member List.not_mem_nil
  | true =>
    have isIds := records.ids
    rw [GeneralMask.ids, if_pos init] at isIds
    rw [maskFunction, if_pos init, isIds, ← length_enteredIds]
    by_cases short : (enteredIds []
        (pairs.map fun pair => docattrFieldId schema pair.1)).length < maxDocattrField
    · obtain ⟨free, isFree⟩ := Nat.exists_eq_succ_of_ne_zero (Nat.sub_ne_zero_of_lt short)
      obtain ⟨given, writes⟩ := records.writes
      obtain ⟨shadow, isShadow, shadowBits⟩ := writes 0
      obtain ⟨direct, isDirect, directBits⟩ := writes record
      have sameShadow : shadow = mask.docattr :=
        Option.some.inj (isShadow.symm.trans records.docattr)
      subst sameShadow
      have settable : ∀ id ∈ enteredIds []
          (pairs.map fun pair => docattrFieldId schema pair.1),
          ∃ field, schema[id]? = some field ∧ Settable field := by
        intro id member
        rw [mem_enteredIds, List.mem_map] at member
        obtain isNil | ⟨pair, inPairs, rfl⟩ := member
        · exact absurd isNil List.not_mem_nil
        · rw [schema_docattrFieldId]
          exact records.settable pair inPairs
      obtain ⟨masked, isMasked, maskedBits⟩ := maskFields_spec mask.docattr
        (List.replicate free (-1)) _ record settable
      rw [idList_short short.le, isFree, List.replicate_succ, isMasked, isDirect]
      simp only [Option.map_some, Option.some.injEq, Prod.mk.injEq, true_and, exists_eq_left',
        short]
      constructor
      · rintro rfl index bound spilled unnamed
        have kept := (maskedBits index bound).2 (mt named_iff_entered.mp unnamed)
        rw [← kept]
        exact ((directBits index bound).2 unnamed).mpr (Or.inr spilled)
      · intro clear
        refine BitVec.eq_of_getLsbD_eq fun index bound => ?_
        rw [Bool.eq_iff_iff]
        by_cases named : Named schema pairs index
        · rw [(maskedBits index bound).1 (named_iff_entered.mpr named),
            (shadowBits index bound).1 named, (directBits index bound).1 named]
        · rw [(maskedBits index bound).2 (mt named_iff_entered.mp named),
            (directBits index bound).2 named]
          exact ⟨fun isSet => isSet.elim id fun spilled => clear index bound spilled named,
            Or.inl⟩
    · rw [idList_full (Nat.le_of_not_lt short), maskFields_full]
      constructor
      · rintro ⟨_, none, _⟩
        cases none
      · exact fun condition => absurd condition.1 short

/-- The kind 3 and the flag, in a record whose bits are all set. -/
theorem maskFunction_direct_flagged :
    ∃ mask, setDocmasks plainEnvironment flagged .zero
        [([75], ⟨[51], by decide⟩), ([70], ⟨[49], by decide⟩)] = some mask ∧
      ∃ updated, maskFunction flagged (BitVec.allOnes 512) mask = some (.success, updated) ∧
        setDocattrs plainEnvironment flagged (BitVec.allOnes 512)
          [([75], ⟨[51], by decide⟩), ([70], ⟨[49], by decide⟩)] = some updated := by
  have added : addDocattrFields [] flaggedDefinitions = some flaggedFields := by decide
  have laidOut : buildFieldOffset flaggedFields = (.success, flagged) := by decide
  have laid : WellLaid flagged :=
    (buildFieldOffset_wellLaid (addDocattrFields_shaped (by simp) added) laidOut).1
  have low : Low flagged := by
    intro field member _
    simp only [flagged, List.mem_cons, List.not_mem_nil, or_false] at member
    rcases member with rfl | rfl
    · decide
    · decide
  cases built : setDocmasks plainEnvironment flagged .zero
      [([75], ⟨[51], by decide⟩), ([70], ⟨[49], by decide⟩)] with
  | none =>
    exfalso
    revert built
    decide +kernel
  | some mask =>
    refine ⟨mask, rfl, (maskFunction_direct_iff laid low built _).mpr ⟨by decide, ?_⟩⟩
    intro index bound _ _
    rw [BitVec.getLsbD_allOnes, decide_eq_true bound]

def letterDefinitions : List (CString × FieldType × Int) :=
  (List.finRange 32).map fun (index : Fin 32) =>
    (⟨[65 + UInt8.ofNat index], by revert index; decide⟩, .integer, 1)

def letterFields : List Field :=
  (List.range 32).map fun index => ⟨[65 + UInt8.ofNat index], .integer1, 0, 1, 0, 0⟩

def letters : List Field :=
  (List.range 32).map fun index => ⟨[65 + UInt8.ofNat index], .integer1, index, 1, 0, 0⟩

def letterPairs : List (List UInt8 × CString) :=
  letters.map fun field => (field.name, ⟨[49], by decide⟩)

/-- A mask of 32 fields is read behind its ids, and one with the kind -1 leaves the
flag alone, which the direct call sets. -/
theorem maskFunction_full_and_negative :
    (addDocattrFields [] letterDefinitions = some letterFields ∧
      buildFieldOffset letterFields = (.success, letters) ∧
      (setDocmasks plainEnvironment letters .zero letterPairs).map (maskFunction letters 0) =
        some none ∧
      (setDocattrs plainEnvironment letters 0 letterPairs).isSome) ∧
    (addDocattrFields [] flaggedDefinitions = some flaggedFields ∧
      buildFieldOffset flaggedFields = (.success, flagged) ∧
      (setDocmasks plainEnvironment flagged .zero [([75], ⟨[45, 49], by decide⟩)]).map
        (maskFunction flagged 0) = some (some (.success, 3)) ∧
      setDocattrs plainEnvironment flagged 0 [([75], ⟨[45, 49], by decide⟩)] =
        some (BitVec.ofNat 512 (2 ^ 64 - 1))) := by
  refine ⟨⟨?_, ?_, ?_, ?_⟩, ?_, ?_, ?_, ?_⟩ <;> decide +kernel

end Wisebot.Docattr
