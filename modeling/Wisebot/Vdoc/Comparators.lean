import Mathlib.Data.Set.Basic
import Wisebot.Common.Hangul
import Wisebot.Vdoc.Operations

namespace Wisebot.Vdoc

open Std Lib.Comparing Common

/-! The comparators of `ORDER BY` in `mod_qp_general2`, for document hits and for
virtual documents, and the order of the fields' values that they stand for. The
difference of two numbers is cut to an `int`, whatever their width. -/

universe u

variable {α : Type u}

/-- `sizeof(my_string)` -/
def maxDocattrElementSize : Nat := 64

/-- A field that can be compared, with what its `get_func` finds in the record of
each document: a string is the address of at least 64 bytes. -/
inductive Field where
  | integer (value : UInt32 → Int64)
  | md5 (value : UInt32 → UInt64)
  | string (bytes : UInt32 → Vector UInt8 maxDocattrElementSize) (address : UInt32 → Nat)

def Field.value : Field → UInt32 → DocattrValue
  | .integer value, docid => .integer (value docid).toInt
  | .md5 value, docid => .md5 (value docid).toNat
  | .string bytes address, docid => .string (bytes docid).toList (address docid)

abbrev Fields := String → Option Field

def Fields.docattr (fields : Fields) : Docattr := fun name => (fields name).map Field.value

/-- The parts of `virtual_document_t` that are compared; `docattr` is the document
whose record it points to. -/
structure VirtualEntry where
  id : UInt32
  docattr : UInt32
  relevance : UInt32
deriving DecidableEq, Repr

/-- The loop of both comparators; a rule without a difference ends it. -/
def cbOrderby (difference : KeyRule → α → α → Option Int) : List OrderbyRule → α → α → Int
  | [], _, _ => 0
  | order :: rest, dest, sour =>
    match difference order.rule dest sour with
    | none => 0
    | some diff =>
      if diff ≠ 0 then (if diff > 0 then 1 else -1) * order.type.sign
      else cbOrderby difference rest dest sour

section Differences

variable (fields : Fields)

/-- `string_compare_func` -/
def stringCompareFunc (first second : List UInt8) : Int :=
  hangulStrncmp maxDocattrElementSize first second

/-- `field->compare_func` of the values in two records. -/
def fieldDifference (name : String) (dest sour : UInt32) : Option Int :=
  (fields.docattr name).map fun value => compareValues stringCompareFunc (value dest) (value sour)

def virtualDifference (rule : KeyRule) (dest sour : VirtualEntry) : Option Int :=
  match rule.type with
  | .relevancy => some (toInt32 (dest.relevance.toNat - sour.relevance.toNat))
  | .did => some (toInt32 (dest.id.toNat - sour.id.toNat))
  | .docattr => fieldDifference fields rule.name dest.docattr sour.docattr

/-- `qp_cb_orderby_virtual_document` -/
def cbOrderbyVirtualDocument : List OrderbyRule → VirtualEntry → VirtualEntry → Int :=
  cbOrderby (virtualDifference fields)

def documentDifference (rule : KeyRule) (dest sour : DocHit) : Option Int :=
  match rule.type with
  | .relevancy => some (dest.hitratio - sour.hitratio)
  | .did => some (toInt32 (dest.id.toNat - sour.id.toNat))
  | .docattr => fieldDifference fields rule.name dest.id sour.id

theorem cbOrderbyDocument_eq (rules : List OrderbyRule) (dest sour : DocHit) :
    cbOrderbyDocument fields.docattr stringCompareFunc rules dest sour =
      cbOrderby (documentDifference fields) rules dest sour := by
  induction rules with
  | nil => rfl
  | cons order rest ih =>
    rw [cbOrderbyDocument, cbOrderby, documentDifference]
    cases order.rule.type with
    | relevancy => simp only [ih]
    | did => simp only [ih]
    | docattr =>
      rw [fieldDifference]
      cases fields.docattr order.rule.name with
      | none => rfl
      | some value => simp only [ih, Option.map_some]

end Differences

def Field.order : Field → UInt32 → UInt32 → Ordering
  | .integer value => compareOn fun docid => (value docid).toInt
  | .md5 value => compareOn fun docid => (value docid).toNat
  | .string bytes _ => compareOn fun docid => characters (cString (bytes docid).toList)

section Orders

variable (fields : Fields)

def fieldOrder (name : String) : UInt32 → UInt32 → Ordering :=
  match fields name with
  | none => fun _ _ => .eq
  | some field => field.order

def virtualKeyOrder (rule : KeyRule) : VirtualEntry → VirtualEntry → Ordering :=
  match rule.type with
  | .relevancy => compareOn fun document => document.relevance.toNat
  | .did => compareOn fun document => document.id.toNat
  | .docattr => fun first second => fieldOrder fields rule.name first.docattr second.docattr

def documentKeyOrder (rule : KeyRule) : DocHit → DocHit → Ordering :=
  match rule.type with
  | .relevancy => compareOn DocHit.hitratio
  | .did => compareOn fun document => document.id.toNat
  | .docattr => fun first second => fieldOrder fields rule.name first.id second.id

def OrderType.directed (type : OrderType) (order : α → α → Ordering) : α → α → Ordering :=
  match type with
  | .asc => order
  | .desc => fun first second => order second first

/-- The lexicographic order of the rules' values, each in its direction. -/
def rulesOrder (keyOrder : KeyRule → α → α → Ordering) (rules : List OrderbyRule) :
    α → α → Ordering :=
  lexicographic (rules.map fun order => order.type.directed (keyOrder order.rule))

def Fields.Known (rule : KeyRule) : Prop := rule.type = .docattr → (fields rule.name).isSome

end Orders

/-! ### What an `int` can tell -/

/-- A difference that is none or keeps its sign in an `int`, both ways. -/
def Fits (difference : Int) : Prop :=
  difference ≠ 0 →
    0 < difference.natAbs % 4294967296 ∧ difference.natAbs % 4294967296 < 2147483648

/-- Numbers are near enough to each other, and equal strings look equal behind
their ends as far as the comparison goes on. -/
def Field.Told : Field → UInt32 → UInt32 → Prop
  | .integer value, first, second => Fits ((value first).toInt - (value second).toInt)
  | .md5 value, first, second => Fits ((value first).toNat - (value second).toNat)
  | .string bytes _, first, second =>
    cString (bytes first).toList = cString (bytes second).toList →
      compared maxDocattrElementSize (bytes first).toList =
        compared maxDocattrElementSize (bytes second).toList

section Told

variable (fields : Fields)

def fieldTold (name : String) (first second : UInt32) : Prop :=
  ∀ field, fields name = some field → field.Told first second

def virtualTold (rule : KeyRule) (first second : VirtualEntry) : Prop :=
  match rule.type with
  | .relevancy => Fits (first.relevance.toNat - second.relevance.toNat)
  | .did => Fits (first.id.toNat - second.id.toNat)
  | .docattr => fieldTold fields rule.name first.docattr second.docattr

def documentTold (rule : KeyRule) (first second : DocHit) : Prop :=
  match rule.type with
  | .relevancy => True
  | .did => Fits (first.id.toNat - second.id.toNat)
  | .docattr => fieldTold fields rule.name first.id second.id

end Told

end Wisebot.Vdoc
