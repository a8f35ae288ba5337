import Mathlib.Data.List.Range
import Mathlib.Algebra.Ring.Nat

namespace Wisebot.Lib

/-! Flat byte memories: reads and writes of byte strings. -/

abbrev Mem := Nat → UInt8

namespace Mem

def write (mem : Mem) (start : Nat) (bytes : List UInt8) : Mem :=
  fun address =>
    if start ≤ address then (bytes[address - start]?).getD (mem address)
    else mem address

def read (mem : Mem) (start count : Nat) : List UInt8 :=
  (List.range count).map fun index => mem (start + index)

variable {mem : Mem} {start count address : Nat} {bytes : List UInt8}

@[simp] theorem length_read : (mem.read start count).length = count := by
  simp [read]

@[simp] theorem read_zero : mem.read start 0 = [] := rfl

theorem getElem_read {index : Nat} (bound : index < (mem.read start count).length) :
    (mem.read start count)[index] = mem (start + index) := by
  simp [read]

theorem read_add (mem : Mem) (start first second : Nat) :
    mem.read start (first + second) =
      mem.read start first ++ mem.read (start + first) second := by
  simp [read, List.range_add, Nat.add_assoc, Function.comp_def]

theorem read_congr {other : Mem}
    (same : ∀ index < count, other (start + index) = mem (start + index)) :
    other.read start count = mem.read start count := by
  apply List.map_congr_left
  intro index member
  exact same index (List.mem_range.mp member)

theorem write_apply_outside
    (outside : address < start ∨ start + bytes.length ≤ address) :
    mem.write start bytes address = mem address := by
  unfold write
  split
  case isFalse => rfl
  case isTrue within =>
    rw [List.getElem?_eq_none (by omega)]
    rfl

theorem write_apply_inside {index : Nat} (bound : index < bytes.length) :
    mem.write start bytes (start + index) = bytes[index] := by
  simp [write, List.getElem?_eq_getElem bound]

@[simp] theorem write_nil : mem.write start [] = mem := by
  funext address
  exact write_apply_outside (by simp; omega)

theorem write_singleton (mem : Mem) (start : Nat) (byte : UInt8) :
    mem.write start [byte] = Function.update mem start byte := by
  funext address
  by_cases here : address = start
  · subst here
    rw [Function.update_self, write, if_pos (Nat.le_refl _), Nat.sub_self]
    rfl
  · rw [Function.update_of_ne here]
    exact write_apply_outside (by simp only [List.length_singleton]; omega)

theorem read_write (mem : Mem) (start : Nat) (bytes : List UInt8) :
    (mem.write start bytes).read start bytes.length = bytes := by
  apply List.ext_getElem
  · exact length_read
  · intro index bound bytesBound
    rw [getElem_read, write_apply_inside bytesBound]

theorem read_write_disjoint {other : Nat}
    (disjoint : other + count ≤ start ∨ start + bytes.length ≤ other) :
    (mem.write start bytes).read other count = mem.read other count := by
  apply read_congr
  intro index bound
  exact write_apply_outside (by omega)

theorem write_append (mem : Mem) (start : Nat) (first second : List UInt8) :
    mem.write start (first ++ second) =
      (mem.write start first).write (start + first.length) second := by
  funext address
  by_cases inFirst : address < start + first.length
  · rw [write_apply_outside (.inl inFirst)]
    by_cases below : address < start
    · rw [write_apply_outside (.inl below), write_apply_outside (.inl below)]
    · obtain ⟨index, rfl⟩ := Nat.exists_eq_add_of_le (Nat.le_of_not_lt below)
      have bound : index < first.length := by omega
      rw [write_apply_inside (by simp; omega), write_apply_inside bound,
        List.getElem_append_left bound]
  · obtain ⟨index, rfl⟩ := Nat.exists_eq_add_of_le (Nat.le_of_not_lt inFirst)
    by_cases bound : index < second.length
    · rw [write_apply_inside bound, Nat.add_assoc,
        write_apply_inside (by simp; omega)]
      rw [List.getElem_append_right (by omega)]
      simp
    · rw [write_apply_outside (.inr (by simp; omega)),
        write_apply_outside (.inr (by omega)),
        write_apply_outside (.inr (by omega))]

theorem read_write_replicate (mem : Mem) {start other count size : Nat} (byte : UInt8)
    (behind : start ≤ other) (within : other + count ≤ start + size) :
    (mem.write start (List.replicate size byte)).read other count =
      List.replicate count byte := by
  apply List.ext_getElem
  · simp
  · intro index bound _
    rw [length_read] at bound
    obtain ⟨gap, rfl⟩ := Nat.exists_eq_add_of_le behind
    rw [getElem_read, Nat.add_assoc, write_apply_inside (by simp; omega)]
    simp

theorem read_slice (mem : Mem) (start : Nat) {count skip size : Nat}
    (fits : skip + size ≤ count) :
    ((mem.read start count).drop skip).take size = mem.read (start + skip) size := by
  obtain ⟨rest, rfl⟩ := Nat.exists_eq_add_of_le fits
  rw [Nat.add_assoc, read_add, List.drop_left' length_read, read_add,
    List.take_left' length_read]

theorem take_read (mem : Mem) (start : Nat) {count size : Nat} (fits : size ≤ count) :
    (mem.read start count).take size = mem.read start size := by
  obtain ⟨rest, rfl⟩ := Nat.exists_eq_add_of_le fits
  rw [read_add, List.take_left' length_read]

/-- Rewriting a range with what stands there changes nothing. -/
theorem write_read_self (mem : Mem) (start count : Nat) :
    mem.write start (mem.read start count) = mem := by
  funext address
  by_cases inside : start ≤ address ∧ address < start + count
  · obtain ⟨index, rfl⟩ := Nat.exists_eq_add_of_le inside.1
    rw [write_apply_inside (by simp; omega), getElem_read]
  · exact write_apply_outside (by simp; omega)

/-- Writing back a range in which only a part was replaced writes that part. -/
theorem write_patched (mem : Mem) (start : Nat) {count position : Nat}
    (fits : position + bytes.length ≤ count) :
    mem.write start ((mem.read start count).take position ++
      (bytes ++ (mem.read start count).drop (position + bytes.length))) =
    mem.write (start + position) bytes := by
  obtain ⟨rest, rfl⟩ := Nat.exists_eq_add_of_le fits
  have parts : mem.read start (position + bytes.length + rest) =
      mem.read start position ++ (mem.read (start + position) bytes.length ++
        mem.read (start + position + bytes.length) rest) := by
    rw [read_add, read_add, List.append_assoc, Nat.add_assoc start]
  have kept : mem.read (start + position + bytes.length) rest =
      (mem.write (start + position) bytes).read
        (start + position + bytes.length) rest :=
    (read_write_disjoint (.inr le_rfl)).symm
  have dropped : (mem.read start (position + bytes.length + rest)).drop
      (position + bytes.length) = mem.read (start + position + bytes.length) rest := by
    rw [parts, ← List.append_assoc]
    exact List.drop_left' (by simp)
  rw [dropped, parts, List.take_left' length_read, write_append, write_read_self,
    length_read, write_append, kept, write_read_self]

/-- The bytes before the first zero, at most `fuel` of them. -/
def cString (mem : Mem) : (fuel start : Nat) → List UInt8
  | 0, _ => []
  | fuel + 1, start =>
    if mem start = 0 then [] else mem start :: cString mem fuel (start + 1)

/-- `string` stands at `start`, followed by its zero. -/
structure HoldsString (mem : Mem) (start : Nat) (string : List UInt8) : Prop where
  bytes : mem.read start (string.length + 1) = string ++ [0]
  nonzero : ∀ byte ∈ string, byte ≠ 0

theorem HoldsString.cString {string : List UInt8} {fuel : Nat}
    (holds : HoldsString mem start string) (enough : string.length < fuel) :
    mem.cString fuel start = string := by
  induction string generalizing start fuel with
  | nil =>
    obtain ⟨rest, rfl⟩ := Nat.exists_eq_add_of_lt enough
    have terminator := holds.bytes
    simp [read] at terminator
    simp [Mem.cString, terminator]
  | cons byte string induction =>
    cases fuel with
    | zero => cases enough
    | succ fuel =>
      have bytes := holds.bytes
      rw [List.length_cons, Nat.add_comm _ 1, read_add] at bytes
      simp only [List.cons_append] at bytes
      have first : mem start = byte := by
        simpa [read] using congrArg List.head? bytes
      have rest : mem.read (start + 1) (string.length + 1) =
          string ++ [0] := by
        simpa [read] using congrArg List.tail bytes
      have nonzero : mem start ≠ 0 := by
        rw [first]
        exact holds.nonzero byte List.mem_cons_self
      rw [Mem.cString, if_neg nonzero, first]
      congr 1
      apply induction
      · exact ⟨rest, fun other member =>
          holds.nonzero other (List.mem_cons_of_mem _ member)⟩
      · simpa using enough

theorem HoldsString.of_write {string : List UInt8} (mem : Mem) (start : Nat)
    (nonzero : ∀ byte ∈ string, byte ≠ 0) :
    HoldsString (mem.write start (string ++ [0])) start string where
  bytes := by
    have written := read_write mem start (string ++ [0])
    rwa [List.length_append] at written
  nonzero := nonzero

theorem HoldsString.frame {string : List UInt8} {other : Nat}
    (holds : HoldsString mem other string)
    (disjoint : other + string.length + 1 ≤ start ∨
      start + bytes.length ≤ other) :
    HoldsString (mem.write start bytes) other string where
  bytes := by
    rw [read_write_disjoint (by omega)]
    exact holds.bytes
  nonzero := holds.nonzero

end Mem

end Wisebot.Lib
