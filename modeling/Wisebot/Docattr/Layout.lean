import Mathlib.Data.List.Pairwise
import Mathlib.Tactic.Linarith
import Wisebot.Docattr.Fields

namespace Wisebot.Docattr

/-! The layout of the fields: `add_docattr_field` behind `parse_field_type` and
`build_field_offset`. -/

inductive FieldType where
  | string
  | integer
  | bit
  | enum
  | md5
  | unknown
  deriving DecidableEq, Repr

/-- The `int` a `long` is passed as. -/
def toInt (size : Int) : Int := size.bmod (2 ^ 32)

def checkNumberInRange (number low high : Int) : Ret :=
  if number < low then .fail else if number > high then .fail else .success

/-- What `add_docattr_field` sets in a field. -/
structure Shape where
  accessor : Accessor
  size : Nat
  bitSize : Nat
  deriving DecidableEq

def integerShape (size : Int) : Option Shape :=
  let size : Int := if size = 0 then sizeofLong else size
  if size = 8 then some ⟨.integer, 8, 0⟩
  else if size = 4 then some ⟨.integer4, 4, 0⟩
  else if size = 2 then some ⟨.integer2, 2, 0⟩
  else if size = 1 then some ⟨.integer1, 1, 0⟩
  else none

def fieldShape (type : FieldType) (size : Int) : Option Shape :=
  match type with
  | .string =>
    match checkNumberInRange (toInt size) 1 maxDocattrElementSize with
    | .success => some ⟨.string, (toInt size).toNat, 0⟩
    | .fail => none
  | .integer => integerShape size
  | .enum => integerShape size
  | .bit =>
    match checkNumberInRange (toInt size) 1 maxBitSize with
    | .success =>
      if size = 1 then some ⟨.onebit, sizeofLong, 1⟩
      else if size = 8 ∨ size = 16 ∨ size = 32 ∨ size = 64 then integerShape (size / 8)
      else some ⟨.bit, sizeofLong, (toInt size).toNat⟩
    | .fail => none
  | .md5 => some ⟨.md5, sizeofLong, 0⟩
  | .unknown => none

/-- The offsets stay open until the layout is built. To define a name twice is
not embedded (`none`): it overwrites the field and counts one more. -/
def addDocattrField (schema : List Field) (name : CString) (type : FieldType) (size : Int) :
    Option (Ret × List Field) :=
  if (returnDocattrField schema name.bytes).isSome then none
  else if maxDocattrField ≤ schema.length then some (.fail, schema)
  else if shortStringSize ≤ name.bytes.length then some (.fail, schema)
  else
    match fieldShape type size with
    | none => some (.fail, schema)
    | some shape =>
      some (.success, schema ++
        [⟨name.bytes, shape.accessor, 0, shape.size, 0, shape.bitSize⟩])

def addDocattrFields (schema : List Field) :
    List (CString × FieldType × Int) → Option (List Field)
  | [] => some schema
  | (name, type, size) :: definitions =>
    match addDocattrField schema name type size with
    | some (.success, schema) => addDocattrFields schema definitions
    | _ => none

def bitPlace (offset bitOffset : Nat) (field : Field) : Nat × Nat :=
  if bitOffset + field.bitSize > sizeofLong * bitPerByte then (offset + sizeofLong, 0)
  else (offset, bitOffset)

/-- The bit fields share words; the offset and the bit offset behind them. -/
def assignBits : (offset bitOffset : Nat) → List Field → (Nat × Nat) × List Field
  | offset, bitOffset, [] => ((offset, bitOffset), [])
  | offset, bitOffset, field :: fields =>
    if field.isBit then
      let place := bitPlace offset bitOffset field
      let rest := assignBits place.1 (place.2 + field.bitSize) fields
      (rest.1, { field with offset := place.1, bitOffset := place.2 } :: rest.2)
    else
      let rest := assignBits offset bitOffset fields
      (rest.1, field :: rest.2)

/-- The other fields, one after the other; `wanted` stands for the check of the
size and of `assigned_field`. -/
def assignBytes (wanted : Field → Bool) : (offset : Nat) → List Field → Nat × List Field
  | offset, [] => (offset, [])
  | offset, field :: fields =>
    if wanted field then
      let rest := assignBytes wanted (offset + field.size) fields
      (rest.1, { field with offset := offset } :: rest.2)
    else
      let rest := assignBytes wanted offset fields
      (rest.1, field :: rest.2)

def ofSize (size : Nat) (field : Field) : Bool := !field.isBit && field.size = size

def ofOtherSize (field : Field) : Bool :=
  !field.isBit && field.size ≠ 8 && field.size ≠ 4 && field.size ≠ 2

def buildFieldOffset (schema : List Field) : Ret × List Field :=
  let bits := assignBits 0 0 schema
  let offset := if bits.1.2 ≠ 0 then bits.1.1 + sizeofLong else bits.1.1
  let eights := assignBytes (ofSize 8) offset bits.2
  let fours := assignBytes (ofSize 4) eights.1 eights.2
  let twos := assignBytes (ofSize 2) fours.1 fours.2
  let others := assignBytes ofOtherSize twos.1 twos.2
  if others.1 > maxDocattrElementSize then (.fail, others.2) else (.success, others.2)

namespace Field

def start (field : Field) : Nat :=
  if field.isBit then bitPerByte * field.offset + field.bitOffset
  else bitPerByte * field.offset

def stop (field : Field) : Nat :=
  if field.isBit then bitPerByte * field.offset + field.bitOffset + field.bitSize
  else bitPerByte * (field.offset + field.size)

def Apart (field other : Field) : Prop :=
  field.stop ≤ other.start ∨ other.stop ≤ field.start

theorem Apart.symm {field other : Field} (apart : field.Apart other) : other.Apart field :=
  Or.symm apart

structure Moved (field moved : Field) : Prop where
  name : moved.name = field.name
  accessor : moved.accessor = field.accessor
  size : moved.size = field.size
  bitSize : moved.bitSize = field.bitSize

theorem Moved.refl (field : Field) : Moved field field := ⟨rfl, rfl, rfl, rfl⟩

end Field

section Bytes

variable {wanted : Field → Bool} {offset : Nat} {fields : List Field}

/-- A pass looks at the kind and the size of a field, not at its place. -/
structure BytePass (wanted : Field → Bool) : Prop where
  blind : ∀ field offset, wanted { field with offset := offset } = wanted field
  bytes : ∀ field, wanted field → field.isBit = false

theorem assignBytes_offset_le (wanted : Field → Bool) (offset : Nat) (fields : List Field) :
    offset ≤ (assignBytes wanted offset fields).1 := by
  induction fields generalizing offset with
  | nil => exact le_rfl
  | cons field fields induction =>
    rw [assignBytes]
    split
    · exact (Nat.le_add_right _ _).trans (induction _)
    · exact induction _

theorem assignBytes_bounds (pass : BytePass wanted) :
    ∀ field ∈ (assignBytes wanted offset fields).2, wanted field →
      bitPerByte * offset ≤ field.start ∧
        field.stop ≤ bitPerByte * (assignBytes wanted offset fields).1 := by
  induction fields generalizing offset with
  | nil => simp [assignBytes]
  | cons head fields induction =>
    intro field member isWanted
    rw [assignBytes] at member ⊢
    split at member
    case isTrue headWanted =>
      rw [if_pos headWanted]
      have later := assignBytes_offset_le wanted (offset + head.size) fields
      rcases List.mem_cons.mp member with rfl | inRest
      · have noBit : ({ head with offset := offset } : Field).isBit = false :=
          pass.bytes head headWanted
        simp only [Field.start, Field.stop, noBit, Bool.false_eq_true, if_false, bitPerByte]
        omega
      · obtain ⟨behind, before⟩ := induction field inRest isWanted
        simp only [bitPerByte] at behind before ⊢
        omega
    case isFalse headSkipped =>
      rw [if_neg headSkipped]
      rcases List.mem_cons.mp member with rfl | inRest
      · exact absurd isWanted headSkipped
      · exact induction field inRest isWanted

theorem assignBytes_kept (pass : BytePass wanted) :
    ∀ field ∈ (assignBytes wanted offset fields).2, wanted field = false → field ∈ fields := by
  induction fields generalizing offset with
  | nil => simp [assignBytes]
  | cons head fields induction =>
    intro field member skipped
    rw [assignBytes] at member
    split at member
    case isTrue headWanted =>
      rcases List.mem_cons.mp member with rfl | inRest
      · rw [pass.blind, headWanted] at skipped
        cases skipped
      · exact List.mem_cons_of_mem _ (induction field inRest skipped)
    case isFalse =>
      rcases List.mem_cons.mp member with rfl | inRest
      · exact List.mem_cons_self
      · exact List.mem_cons_of_mem _ (induction field inRest skipped)

/-- Between two passes: the fields that have been placed end before the limit
and do not overlap, the bit fields are those of the bit pass, the others lie
behind `base`. -/
structure Separated (bits : List Field) (base : Nat) (placed : Field → Bool) (limit : Nat)
    (fields : List Field) : Prop where
  base_le : base ≤ limit
  before : ∀ field ∈ fields, placed field → field.stop ≤ bitPerByte * limit
  behind : ∀ field ∈ fields, placed field → field.isBit = false →
    bitPerByte * base ≤ field.start
  kept : ∀ field ∈ fields, field.isBit → field ∈ bits
  apart : fields.Pairwise fun field other => placed field → placed other → field.Apart other

theorem assignBytes_apart {placed : Field → Bool} (pass : BytePass wanted)
    (before : ∀ field ∈ fields, placed field → field.stop ≤ bitPerByte * offset)
    (apart : fields.Pairwise fun field other =>
      placed field → placed other → field.Apart other) :
    (assignBytes wanted offset fields).2.Pairwise fun field other =>
      (placed field || wanted field) → (placed other || wanted other) →
        field.Apart other := by
  induction fields generalizing offset with
  | nil => simp [assignBytes]
  | cons head fields induction =>
    obtain ⟨headApart, restApart⟩ := List.pairwise_cons.mp apart
    have restBefore : ∀ field ∈ fields, placed field → field.stop ≤ bitPerByte * offset :=
      fun field member => before field (List.mem_cons_of_mem _ member)
    rw [assignBytes]
    split
    case isTrue headWanted =>
      have noBit : ({ head with offset := offset } : Field).isBit = false :=
        pass.bytes head headWanted
      refine List.pairwise_cons.mpr ⟨?_, induction ?_ restApart⟩
      · intro other member _ otherPlaced
        simp only [Field.Apart, Field.start, Field.stop, noBit, Bool.false_eq_true, if_false]
        by_cases otherWanted : wanted other
        · exact .inl (assignBytes_bounds pass other member otherWanted).1
        · have isPlaced : placed other := by simpa [otherWanted] using otherPlaced
          have kept := assignBytes_kept pass other member (by simpa using otherWanted)
          exact .inr (restBefore other kept isPlaced)
      · intro field member isPlaced
        exact (restBefore field member isPlaced).trans
          (Nat.mul_le_mul_left _ (Nat.le_add_right _ _))
    case isFalse headSkipped =>
      refine List.pairwise_cons.mpr ⟨?_, induction restBefore restApart⟩
      intro other member headPlaced otherPlaced
      have isPlaced : placed head := by simpa [headSkipped] using headPlaced
      by_cases otherWanted : wanted other
      · exact .inl ((before head List.mem_cons_self isPlaced).trans
          (assignBytes_bounds pass other member otherWanted).1)
      · have otherIsPlaced : placed other := by simpa [otherWanted] using otherPlaced
        have kept := assignBytes_kept pass other member (by simpa using otherWanted)
        exact headApart other kept isPlaced otherIsPlaced

theorem assignBytes_separated {bits : List Field} {base : Nat} {placed : Field → Bool}
    (pass : BytePass wanted) (separated : Separated bits base placed offset fields) :
    Separated bits base (fun field => placed field || wanted field)
      (assignBytes wanted offset fields).1 (assignBytes wanted offset fields).2 where
  base_le := separated.base_le.trans (assignBytes_offset_le wanted offset fields)
  before field member isPlaced := by
    by_cases isWanted : wanted field
    · exact (assignBytes_bounds pass field member isWanted).2
    · have kept := assignBytes_kept pass field member (by simpa using isWanted)
      have old : placed field := by simpa [isWanted] using isPlaced
      exact (separated.before field kept old).trans
        (Nat.mul_le_mul_left _ (assignBytes_offset_le wanted offset fields))
  behind field member isPlaced noBit := by
    by_cases isWanted : wanted field
    · exact (Nat.mul_le_mul_left _ separated.base_le).trans
        (assignBytes_bounds pass field member isWanted).1
    · have kept := assignBytes_kept pass field member (by simpa using isWanted)
      have old : placed field := by simpa [isWanted] using isPlaced
      exact separated.behind field kept old noBit
  kept field member isBit := by
    have skipped : wanted field = false := by
      by_contra isWanted
      have noBit := pass.bytes field (by simpa using isWanted)
      rw [noBit] at isBit
      cases isBit
    exact separated.kept field (assignBytes_kept pass field member skipped) isBit
  apart := assignBytes_apart pass separated.before separated.apart

theorem assignBytes_moved :
    List.Forall₂ Field.Moved fields (assignBytes wanted offset fields).2 := by
  induction fields generalizing offset with
  | nil => exact .nil
  | cons head fields induction =>
    rw [assignBytes]
    split
    · exact .cons ⟨rfl, rfl, rfl, rfl⟩ induction
    · exact .cons (.refl head) induction

end Bytes

section Bits

/-- Where the bit pass stands: a multiple of words and at most a word of bits. -/
structure BitCursor (offset bitOffset : Nat) : Prop where
  aligned : offset % sizeofLong = 0
  inWord : bitOffset ≤ 64

theorem bitPlace_spec {offset bitOffset : Nat} {field : Field}
    (cursor : BitCursor offset bitOffset) (narrow : field.bitSize ≤ 64) :
    BitCursor (bitPlace offset bitOffset field).1
        ((bitPlace offset bitOffset field).2 + field.bitSize) ∧
      offset ≤ (bitPlace offset bitOffset field).1 ∧
      bitPerByte * offset + bitOffset ≤
        bitPerByte * (bitPlace offset bitOffset field).1 +
          (bitPlace offset bitOffset field).2 := by
  obtain ⟨aligned, inWord⟩ := cursor
  simp only [sizeofLong] at aligned
  by_cases full : bitOffset + field.bitSize > sizeofLong * bitPerByte
  · rw [bitPlace, if_pos full]
    simp only [sizeofLong, bitPerByte]
    exact ⟨⟨by simp only [sizeofLong]; omega, by omega⟩, by omega, by omega⟩
  · rw [bitPlace, if_neg full]
    simp only [sizeofLong, bitPerByte] at full
    exact ⟨⟨aligned, by omega⟩, le_rfl, le_rfl⟩

structure BitsLaid (offset bitOffset : Nat) (laid : (Nat × Nat) × List Field) : Prop where
  cursor : BitCursor laid.1.1 laid.1.2
  offset_le : offset ≤ laid.1.1
  advances : bitPerByte * offset + bitOffset ≤ bitPerByte * laid.1.1 + laid.1.2
  bounds : ∀ field ∈ laid.2, field.isBit →
    bitPerByte * offset + bitOffset ≤ field.start ∧
      field.stop ≤ bitPerByte * laid.1.1 + laid.1.2
  words : ∀ field ∈ laid.2, field.isBit → field.offset % sizeofLong = 0 ∧
    field.bitOffset + field.bitSize ≤ 64 ∧ field.offset ≤ laid.1.1
  apart : laid.2.Pairwise fun field other =>
    field.isBit → other.isBit → field.Apart other

theorem assignBits_laid {offset bitOffset : Nat} {fields : List Field}
    (narrow : ∀ field ∈ fields, field.isBit → field.bitSize ≤ 64)
    (cursor : BitCursor offset bitOffset) :
    BitsLaid offset bitOffset (assignBits offset bitOffset fields) := by
  induction fields generalizing offset bitOffset with
  | nil => exact ⟨cursor, le_rfl, le_rfl, by simp [assignBits], by simp [assignBits], .nil⟩
  | cons head fields induction =>
    have restNarrow : ∀ field ∈ fields, field.isBit → field.bitSize ≤ 64 :=
      fun field member => narrow field (List.mem_cons_of_mem _ member)
    rw [assignBits]
    split
    case isFalse skipped =>
      have rest := induction restNarrow cursor
      refine ⟨rest.cursor, rest.offset_le, rest.advances, ?_, ?_, ?_⟩
      · intro field member isBit
        rcases List.mem_cons.mp member with rfl | inRest
        · exact absurd isBit skipped
        · exact rest.bounds field inRest isBit
      · intro field member isBit
        rcases List.mem_cons.mp member with rfl | inRest
        · exact absurd isBit skipped
        · exact rest.words field inRest isBit
      · refine List.pairwise_cons.mpr ⟨?_, rest.apart⟩
        intro other _ isBit
        exact absurd isBit skipped
    case isTrue isBit =>
      obtain ⟨next, offset_le, advances⟩ :=
        bitPlace_spec cursor (narrow head List.mem_cons_self isBit)
      have rest := induction restNarrow next
      have placedBit : ({ head with
          offset := (bitPlace offset bitOffset head).1
          bitOffset := (bitPlace offset bitOffset head).2 } : Field).isBit = true := isBit
      have restAdvances := rest.advances
      have restOffset := rest.offset_le
      have headAdvances := advances.trans
        (Nat.add_le_add_left (Nat.le_add_right _ head.bitSize) _)
      refine ⟨rest.cursor, offset_le.trans rest.offset_le, headAdvances.trans rest.advances,
        ?_, ?_, ?_⟩
      · intro field member fieldBit
        rcases List.mem_cons.mp member with rfl | inRest
        · simp only [Field.start, Field.stop, placedBit, if_true]
          omega
        · obtain ⟨behind, before⟩ := rest.bounds field inRest fieldBit
          exact ⟨by omega, before⟩
      · intro field member fieldBit
        rcases List.mem_cons.mp member with rfl | inRest
        · exact ⟨next.aligned, next.inWord, restOffset⟩
        · exact rest.words field inRest fieldBit
      · refine List.pairwise_cons.mpr ⟨?_, rest.apart⟩
        intro other member _ otherBit
        obtain ⟨behind, _⟩ := rest.bounds other member otherBit
        left
        simp only [Field.stop, placedBit, if_true]
        omega

theorem assignBits_moved {offset bitOffset : Nat} {fields : List Field} :
    List.Forall₂ Field.Moved fields (assignBits offset bitOffset fields).2 := by
  induction fields generalizing offset bitOffset with
  | nil => exact .nil
  | cons head fields induction =>
    rw [assignBits]
    split
    · exact .cons ⟨rfl, rfl, rfl, rfl⟩ induction
    · exact .cons (.refl head) induction

end Bits

/-- What `add_docattr_field` leaves in a field. -/
structure Field.Shaped (field : Field) : Prop where
  bits : field.isBit → 1 ≤ field.bitSize ∧ field.bitSize ≤ 62
  onebit : field.accessor = .onebit → field.bitSize = 1
  string : field.accessor = .string → 1 ≤ field.size
  long : field.accessor = .integer ∨ field.accessor = .md5 → field.size = 8
  integer4 : field.accessor = .integer4 → field.size = 4
  integer2 : field.accessor = .integer2 → field.size = 2
  integer1 : field.accessor = .integer1 → field.size = 1

/-- The fields of a schema lie in the record without overlapping; the words of
the bit fields come first. -/
structure WellLaid (schema : List Field) : Prop where
  shaped : ∀ field ∈ schema, field.Shaped
  apart : ∀ field ∈ schema, ∀ other ∈ schema, field ≠ other → field.Apart other
  bits : ∀ field ∈ schema, field.isBit → field.offset % sizeofLong = 0 ∧
    field.bitOffset + field.bitSize ≤ 64 ∧ field.offset + sizeofLong ≤ maxDocattrElementSize
  bytes : ∀ field ∈ schema, field.isBit = false →
    field.offset + field.size ≤ maxDocattrElementSize
  bitsFirst : ∀ field ∈ schema, ∀ other ∈ schema, field.isBit → other.isBit = false →
    field.offset + sizeofLong ≤ other.offset

theorem Field.Moved.shaped {field moved : Field} (same : field.Moved moved)
    (shaped : field.Shaped) : moved.Shaped := by
  obtain ⟨_, accessor, size, bitSize⟩ := same
  have isBit : moved.isBit = field.isBit := by rw [Field.isBit, accessor, Field.isBit]
  constructor
  · rw [isBit, bitSize]
    exact shaped.bits
  · rw [accessor, bitSize]
    exact shaped.onebit
  · rw [accessor, size]
    exact shaped.string
  · rw [accessor, size]
    exact shaped.long
  · rw [accessor, size]
    exact shaped.integer4
  · rw [accessor, size]
    exact shaped.integer2
  · rw [accessor, size]
    exact shaped.integer1

theorem ofSize_pass (size : Nat) : BytePass (ofSize size) where
  blind _ _ := rfl
  bytes field wanted := by
    rw [ofSize, Bool.and_eq_true, Bool.not_eq_true'] at wanted
    exact wanted.1

theorem ofOtherSize_pass : BytePass ofOtherSize where
  blind _ _ := rfl
  bytes field wanted := by
    simp only [ofOtherSize, Bool.and_eq_true, Bool.not_eq_true'] at wanted
    exact wanted.1.1.1

def bitsEnd (bits : (Nat × Nat) × List Field) : Nat :=
  if bits.1.2 ≠ 0 then bits.1.1 + sizeofLong else bits.1.1

theorem BitsLaid.word_before {bits : (Nat × Nat) × List Field} (laid : BitsLaid 0 0 bits)
    {field : Field} (member : field ∈ bits.2) (isBit : field.isBit)
    (some : 1 ≤ field.bitSize) : field.offset + sizeofLong ≤ bitsEnd bits := by
  obtain ⟨aligned, _, offset_le⟩ := laid.words field member isBit
  have cursorAligned := laid.cursor.aligned
  have stop := (laid.bounds field member isBit).2
  simp only [Field.stop, isBit, if_true, bitPerByte] at stop
  simp only [sizeofLong] at aligned cursorAligned
  rw [bitsEnd]
  split
  · omega
  · simp only [sizeofLong]
    omega

theorem BitsLaid.separated {bits : (Nat × Nat) × List Field} (laid : BitsLaid 0 0 bits)
    (some : ∀ field ∈ bits.2, field.isBit → 1 ≤ field.bitSize) :
    Separated bits.2 (bitsEnd bits) Field.isBit (bitsEnd bits) bits.2 where
  base_le := le_rfl
  before field member isBit := by
    have word := laid.word_before member isBit (some field member isBit)
    have inWord := (laid.words field member isBit).2.1
    simp only [sizeofLong] at word
    simp only [Field.stop, isBit, if_true, bitPerByte]
    omega
  behind field _ isBit noBit := by
    rw [isBit] at noBit
    cases noBit
  kept _ member _ := member
  apart := laid.apart

theorem forall₂_moved_trans {first second third : List Field}
    (left : List.Forall₂ Field.Moved first second)
    (right : List.Forall₂ Field.Moved second third) :
    List.Forall₂ Field.Moved first third := by
  induction left generalizing third with
  | nil =>
    cases right
    exact .nil
  | cons same _ induction =>
    cases right with
    | cons again rest =>
      exact .cons ⟨again.name.trans same.name, again.accessor.trans same.accessor,
        again.size.trans same.size, again.bitSize.trans same.bitSize⟩ (induction rest)

theorem forall₂_moved_mem {fields moved : List Field}
    (same : List.Forall₂ Field.Moved fields moved) :
    ∀ field ∈ moved, ∃ original ∈ fields, original.Moved field := by
  induction same with
  | nil => simp
  | cons head _ induction =>
    intro field member
    rcases List.mem_cons.mp member with rfl | inRest
    · exact ⟨_, List.mem_cons_self, head⟩
    · obtain ⟨original, inFields, isMoved⟩ := induction field inRest
      exact ⟨original, List.mem_cons_of_mem _ inFields, isMoved⟩

theorem placed_all (field : Field) :
    ((((field.isBit || ofSize 8 field) || ofSize 4 field) || ofSize 2 field) ||
      ofOtherSize field) = true := by
  simp only [ofSize, ofOtherSize]
  cases field.isBit <;>
    by_cases eight : field.size = 8 <;> by_cases four : field.size = 4 <;>
    by_cases two : field.size = 2 <;> simp_all

/-- What the passes leave together. -/
structure Built (schema : List Field) (limit : Nat) (built : List Field) : Prop where
  laid : BitsLaid 0 0 (assignBits 0 0 schema)
  separated : Separated (assignBits 0 0 schema).2 (bitsEnd (assignBits 0 0 schema))
    (fun _ => true) limit built
  moved : List.Forall₂ Field.Moved schema built

/-- The five passes and where they end. -/
def assignAll (schema : List Field) : Nat × List Field :=
  let bits := assignBits 0 0 schema
  let eights := assignBytes (ofSize 8) (bitsEnd bits) bits.2
  let fours := assignBytes (ofSize 4) eights.1 eights.2
  let twos := assignBytes (ofSize 2) fours.1 fours.2
  assignBytes ofOtherSize twos.1 twos.2

theorem buildFieldOffset_eq (schema : List Field) :
    buildFieldOffset schema =
      if (assignAll schema).1 > maxDocattrElementSize then (.fail, (assignAll schema).2)
      else (.success, (assignAll schema).2) := rfl

theorem assignAll_built {schema : List Field} (shaped : ∀ field ∈ schema, field.Shaped) :
    Built schema (assignAll schema).1 (assignAll schema).2 := by
  let bits := assignBits 0 0 schema
  have narrow : ∀ field ∈ schema, field.isBit → field.bitSize ≤ 64 := fun field member isBit =>
    ((shaped field member).bits isBit).2.trans (by decide)
  have laid : BitsLaid 0 0 bits := assignBits_laid narrow ⟨rfl, Nat.zero_le _⟩
  have bitsMoved : List.Forall₂ Field.Moved schema bits.2 := assignBits_moved
  have some : ∀ field ∈ bits.2, field.isBit → 1 ≤ field.bitSize := by
    intro field member isBit
    obtain ⟨original, inSchema, same⟩ := forall₂_moved_mem bitsMoved field member
    exact ((same.shaped (shaped original inSchema)).bits isBit).1
  have afterEights := assignBytes_separated (ofSize_pass 8) (laid.separated some)
  have afterFours := assignBytes_separated (ofSize_pass 4) afterEights
  have afterTwos := assignBytes_separated (ofSize_pass 2) afterFours
  have afterOthers := assignBytes_separated ofOtherSize_pass afterTwos
  refine ⟨laid, ?_, ?_⟩
  · have all : (fun field : Field => (((field.isBit || ofSize 8 field) || ofSize 4 field) ||
        ofSize 2 field) || ofOtherSize field) = fun _ => true := funext placed_all
    rw [all] at afterOthers
    exact afterOthers
  · exact forall₂_moved_trans bitsMoved (forall₂_moved_trans assignBytes_moved
      (forall₂_moved_trans assignBytes_moved
        (forall₂_moved_trans assignBytes_moved assignBytes_moved)))

theorem Built.wellLaid {schema built : List Field} {limit : Nat}
    (shaped : ∀ field ∈ schema, field.Shaped) (result : Built schema limit built)
    (fits : limit ≤ maxDocattrElementSize) : WellLaid built := by
  obtain ⟨laid, separated, moved⟩ := result
  have builtShaped : ∀ field ∈ built, field.Shaped := by
    intro field member
    obtain ⟨original, inSchema, same⟩ := forall₂_moved_mem moved field member
    exact same.shaped (shaped original inSchema)
  have word : ∀ field ∈ built, field.isBit →
      field.offset + sizeofLong ≤ bitsEnd (assignBits 0 0 schema) := by
    intro field member isBit
    exact laid.word_before (separated.kept field member isBit) isBit
      ((builtShaped field member).bits isBit).1
  refine ⟨builtShaped, ?_, ?_, ?_, ?_⟩
  · intro field member other otherMember different
    have symmetric : Std.Symm Field.Apart := ⟨fun _ _ => Field.Apart.symm⟩
    have apart : built.Pairwise Field.Apart := separated.apart.imp fun both => both rfl rfl
    exact apart.forall member otherMember different
  · intro field member isBit
    obtain ⟨aligned, inWord, _⟩ := laid.words field (separated.kept field member isBit) isBit
    exact ⟨aligned, inWord, (word field member isBit).trans (separated.base_le.trans fits)⟩
  · intro field member noBit
    have stop := separated.before field member rfl
    simp only [Field.stop, noBit, Bool.false_eq_true, if_false, bitPerByte] at stop
    omega
  · intro field member other otherMember isBit noBit
    have start := separated.behind other otherMember rfl noBit
    have before := word field member isBit
    simp only [Field.start, noBit, Bool.false_eq_true, if_false, bitPerByte] at start
    omega

theorem buildFieldOffset_wellLaid {schema built : List Field}
    (shaped : ∀ field ∈ schema, field.Shaped)
    (run : buildFieldOffset schema = (.success, built)) :
    WellLaid built ∧ List.Forall₂ Field.Moved schema built := by
  have result := assignAll_built shaped
  rw [buildFieldOffset_eq] at run
  split at run
  case isTrue => cases run
  case isFalse fits =>
    rw [not_lt] at fits
    cases run
    exact ⟨result.wellLaid shaped fits, result.moved⟩

end Wisebot.Docattr
