import Wisebot.Dh.Table
import Wisebot.Lib.Buffer
import Wisebot.Lib.Iconv

namespace Wisebot.Xml

open Wisebot.Lib

/-! The stack of byte strings of the XML parser: `mod_xmlparser/stack.c`. The strings
lie behind each other in one area; only the one on top grows. Allocations are taken
to succeed. -/

abbrev Bytes := List UInt8

def expandStackDbSize : Nat := 4096

structure StackSlot where
  offset : Nat
  size : Nat
deriving DecidableEq

/-- The slots up to `top`, the one on top first. -/
structure Stack where
  usedsize : Nat
  allocatedsize : Nat
  db : Buffer UInt8
  slots : List StackSlot
  expandable : Bool

def stCreate2 (area : Buffer UInt8) (size : Nat) : Stack where
  usedsize := 0
  allocatedsize := size
  db := area
  slots := []
  expandable := false

/-- The loop around `expandstack`; `none` is a stack that cannot be expanded. -/
def Stack.reserve (stack : Stack) (len : Nat) : Option Stack :=
  if stack.usedsize + len ≤ stack.allocatedsize then some stack
  else if stack.expandable then
    let missing := stack.usedsize + len - stack.allocatedsize
    let rounds := (missing + (expandStackDbSize - 1)) / expandStackDbSize
    some { stack with allocatedsize := stack.allocatedsize + rounds * expandStackDbSize }
  else none

/-- `st_push` without data, which succeeds where no byte has to be found. -/
def stPush (stack : Stack) : Stack :=
  { stack with slots := ⟨stack.usedsize, 0⟩ :: stack.slots }

/-- `none` is the slot before the first one; the flag tells whether the call returned 1. -/
def stAppend (stack : Stack) (data : Bytes) : Option (Bool × Stack) :=
  match stack.reserve data.length with
  | none => some (false, stack)
  | some stack =>
    match stack.slots with
    | [] => none
    | top :: below =>
      some (true,
        { stack with
          db := stack.db.write stack.usedsize data
          slots := { top with size := top.size + data.length } :: below
          usedsize := stack.usedsize + data.length })

def Packed : (usedsize : Nat) → List StackSlot → Prop
  | usedsize, [] => usedsize = 0
  | usedsize, slot :: below => slot.offset + slot.size = usedsize ∧ Packed slot.offset below

structure Stack.WellFormed (stack : Stack) : Prop where
  packed : Packed stack.usedsize stack.slots
  within : stack.usedsize ≤ stack.allocatedsize

def Stack.texts (stack : Stack) : List Bytes :=
  stack.slots.map fun slot => stack.db.slice slot.offset slot.size

def Stack.HasRoom (stack : Stack) (len : Nat) : Prop :=
  stack.expandable = true ∨ stack.usedsize + len ≤ stack.allocatedsize

variable {stack : Stack} {data : Bytes}

theorem stCreate2_wellFormed (area : Buffer UInt8) (size : Nat) :
    (stCreate2 area size).WellFormed :=
  ⟨rfl, Nat.zero_le size⟩

theorem Packed.slots_below {usedsize : Nat} {slots : List StackSlot}
    (packed : Packed usedsize slots) {slot : StackSlot} (member : slot ∈ slots) :
    slot.offset + slot.size ≤ usedsize := by
  induction slots generalizing usedsize with
  | nil => cases member
  | cons top below induction =>
    obtain ⟨ends, packed⟩ := packed
    rcases List.mem_cons.mp member with rfl | member
    · exact ends.le
    · have inBelow := induction packed member
      omega

theorem Stack.HasRoom.mono {more less : Nat} (room : stack.HasRoom more) (smaller : less ≤ more) :
    stack.HasRoom less :=
  room.imp_right fun fits => Nat.le_trans (Nat.add_le_add_left smaller _) fits

theorem stPush_wellFormed (wellFormed : stack.WellFormed) : (stPush stack).WellFormed :=
  ⟨⟨Nat.add_zero _, wellFormed.packed⟩, wellFormed.within⟩

@[simp] theorem texts_stPush : (stPush stack).texts = [] :: stack.texts := rfl

@[simp] theorem hasRoom_stPush {len : Nat} : (stPush stack).HasRoom len ↔ stack.HasRoom len :=
  Iff.rfl

theorem Stack.HasRoom.reserve {len : Nat} (room : stack.HasRoom len) :
    ∃ allocatedsize, stack.reserve len = some { stack with allocatedsize := allocatedsize } ∧
      stack.allocatedsize ≤ allocatedsize ∧ stack.usedsize + len ≤ allocatedsize ∧
      (stack.expandable = false → allocatedsize = stack.allocatedsize) := by
  unfold Stack.reserve
  split
  case isTrue fits => exact ⟨stack.allocatedsize, rfl, Nat.le_refl _, fits, fun _ => rfl⟩
  case isFalse full =>
    have expandable := room.resolve_right full
    rw [if_pos expandable]
    refine ⟨_, rfl, Nat.le_add_right _ _, ?_, by simp [expandable]⟩
    rw [expandStackDbSize]
    omega

theorem reserve_full {len : Nat} (full : ¬ stack.HasRoom len) : stack.reserve len = none := by
  simp only [Stack.HasRoom, not_or] at full
  rw [Stack.reserve, if_neg full.2, if_neg full.1]

theorem stAppend_full (full : ¬ stack.HasRoom data.length) :
    stAppend stack data = some (false, stack) := by
  rw [stAppend, reserve_full full]

theorem stAppend_of_room (wellFormed : stack.WellFormed) (room : stack.HasRoom data.length)
    {top : Bytes} {below : List Bytes} (texts : stack.texts = top :: below) :
    ∃ after, stAppend stack data = some (true, after) ∧ after.WellFormed ∧
      after.texts = (top ++ data) :: below ∧
      ∀ more, after.HasRoom more ↔ stack.HasRoom (data.length + more) := by
  obtain ⟨allocatedsize, reserved, grown, fits, fixed⟩ := room.reserve
  rcases shape : stack.slots with _ | ⟨slot, slots⟩
  · rw [Stack.texts, shape] at texts
    cases texts
  have packed := wellFormed.packed
  rw [shape] at packed
  obtain ⟨ends, packed⟩ := packed
  rw [Stack.texts, shape, List.map_cons, List.cons_eq_cons] at texts
  have appended : stAppend stack data = some (true,
      { stack with
        allocatedsize := allocatedsize
        db := stack.db.write stack.usedsize data
        slots := { slot with size := slot.size + data.length } :: slots
        usedsize := stack.usedsize + data.length }) := by
    rw [stAppend, reserved]
    simp only [shape]
  refine ⟨_, appended, ⟨⟨?_, packed⟩, fits⟩, ?_, ?_⟩
  · change slot.offset + (slot.size + data.length) = stack.usedsize + data.length
    omega
  · rw [Stack.texts, List.map_cons, ← texts.1, ← texts.2]
    congr 1
    · rw [Buffer.slice_add, Buffer.slice_write_below ends.le, ends, Buffer.slice_write]
    · apply List.map_congr_left
      intro other member
      have inBelow := packed.slots_below member
      exact Buffer.slice_write_below (by omega)
  · intro more
    simp only [Stack.HasRoom]
    cases expandable : stack.expandable with
    | true => simp
    | false =>
      rw [fixed expandable]
      simp [Nat.add_assoc]

/-! The handlers that the XML parser gives to expat: `mod_xmlparser/parser.c`. Every
open element has an entry in `nodes` and `path` and a string on the stack, which
begins with its attributes. -/

def maxFieldNameLength : Nat := 64

def convertingUnitByte : Nat := 256

structure Node where
  size : Nat
  attrnum : Nat
  cdataSection : Bool
  name : Bytes
  offset : Int

structure Parser where
  dh : Dh.Table Node
  db : Bytes

/-- `iconv` is `none` without a conversion. -/
structure LocalData where
  p : Parser
  st : Stack
  depth : Int
  panicerror : Bool
  iconv : Option Conversion
  nodes : Nat → Node
  path : Nat → Bytes

/-- `strncpy` into an array of that size, which is ended in its last byte. -/
def copyName (size : Nat) (name : Bytes) : Bytes := name.take (size - 1)

def initNode (name : Bytes) : Node where
  size := 0
  attrnum := 0
  cdataSection := false
  name := copyName maxFieldNameLength name
  offset := -1

/-- The loop of `character_handler`; `none` is no end in `fuel` rounds, or a stack without
a string. -/
def convertLoop (conversion : Conversion) : (fuel : Nat) → Stack → (input : Bytes) → Option Stack
  | _, st, [] => some st
  | 0, _, _ :: _ => none
  | fuel + 1, st, byte :: input =>
    let converted := conversion.iconv (byte :: input) convertingUnitByte
    if converted.errno = some .EILSEQ ∨ converted.errno = some .EINVAL then
      convertLoop conversion fuel st converted.rest.tail
    else
      match stAppend st converted.output with
      | none => none
      | some (false, st) => some st
      | some (true, st) => convertLoop conversion fuel st converted.rest

def characterHandler (data : LocalData) (s : Bytes) : Option LocalData :=
  if data.panicerror then some data
  else
    match data.iconv with
    | none => (stAppend data.st s).map fun appended => { data with st := appended.2 }
    | some conversion =>
      (convertLoop conversion s.length data.st s).map fun st => { data with st := st }

end Wisebot.Xml
