import Mathlib.Algebra.Ring.Nat
import Mathlib.Data.List.Basic

namespace Wisebot.Dh

/-! The table of the dynamic hash of the XML parser: `mod_xmlparser/dh.c`, as it is
created. A directory of bucket offsets leads to buckets of slots. Buckets are numbered in
the order of their creation, so that offsets and sizes count buckets; allocations are
taken to succeed. -/

abbrev Key := List UInt8

def dataPerBucket : Nat := 8

def defaultDirSize : Nat := 8

structure Slot (α : Type) where
  key : Key
  chunk : α

structure Bucket (α : Type) where
  level : Nat
  key : Nat
  slots : List (Slot α)

structure Table (α : Type) where
  dirsize : Nat
  dirs : Nat → Nat
  buckets : Nat → Bucket α
  usedsize : Nat
  allocatedsize : Nat

variable {α : Type}

def emptySlots (garbage : α) : List (Slot α) := List.replicate dataPerBucket ⟨[], garbage⟩

def dhCreate (garbage : α) : Table α where
  dirsize := defaultDirSize
  dirs := fun index => index
  buckets := fun index => ⟨defaultDirSize, index, emptySlots garbage⟩
  usedsize := defaultDirSize
  allocatedsize := defaultDirSize

end Wisebot.Dh
