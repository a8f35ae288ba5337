import Mathlib.Logic.Function.Basic
import Wisebot.Lib.Mem

namespace Wisebot.Lib.Blocks

/-! A flat memory kept in blocks of one size: an address is the number of a block and an
offset in it. -/

/-- The memory that the blocks hold, with zeros behind the last one. -/
def flat (size : Nat) (blocks : List Mem) : Mem := fun address =>
  (blocks.getD (address / size) fun _ => 0) (address % size)

def load (blocks : List Mem) (block offset : Nat) : Option UInt8 :=
  blocks[block]?.map fun bytes => bytes offset

def store (blocks : List Mem) (block offset : Nat) (byte : UInt8) : Option (List Mem) :=
  blocks[block]?.map fun bytes => blocks.set block (Function.update bytes offset byte)

variable {size : Nat} {blocks : List Mem} {address : Nat}

theorem block_lt (inside : address < size * blocks.length) : address / size < blocks.length :=
  Nat.div_lt_of_lt_mul inside

theorem load_eq (inside : address < size * blocks.length) :
    load blocks (address / size) (address % size) = some (flat size blocks address) := by
  have bound := block_lt inside
  simp only [load, flat, List.getElem?_eq_getElem bound, Option.map_some,
    List.getD_eq_getElem?_getD, Option.getD_some]

theorem flat_append (more : List Mem) (inside : address < size * blocks.length) :
    flat size (blocks ++ more) address = flat size blocks address := by
  have bound := block_lt inside
  simp only [flat, List.getD_eq_getElem?_getD, List.getElem?_append_left bound]

theorem flat_take {count : Nat} (inside : address < size * count) :
    flat size (blocks.take count) address = flat size blocks address := by
  have bound : address / size < count := Nat.div_lt_of_lt_mul inside
  simp only [flat, List.getD_eq_getElem?_getD, List.getElem?_take_of_lt bound]

theorem store_eq (byte : UInt8) (inside : address < size * blocks.length) :
    ∃ stored, store blocks (address / size) (address % size) byte = some stored ∧
      stored.length = blocks.length ∧
      flat size stored = Function.update (flat size blocks) address byte := by
  have bound := block_lt inside
  refine ⟨blocks.set (address / size)
    (Function.update blocks[address / size] (address % size) byte), ?_, List.length_set, ?_⟩
  · simp only [store, List.getElem?_eq_getElem bound, Option.map_some]
  · funext other
    by_cases same : other = address
    · subst same
      rw [Function.update_self]
      simp only [flat, List.getD_eq_getElem?_getD, List.getElem?_set_self bound,
        Option.getD_some, Function.update_self]
    · rw [Function.update_of_ne same]
      simp only [flat, List.getD_eq_getElem?_getD]
      by_cases block : other / size = address / size
      · have offset : other % size ≠ address % size := by
          intro offset
          apply same
          rw [← Nat.div_add_mod other size, block, offset, Nat.div_add_mod]
        rw [block, List.getElem?_set_self bound, List.getElem?_eq_getElem bound,
          Option.getD_some, Option.getD_some, Function.update_of_ne offset]
      · rw [List.getElem?_set_ne (Ne.symm block)]

/-- The next address, in blocks. -/
theorem next_address (positive : 0 < size) (address : Nat) :
    (if address % size + 1 = size then address / size + 1 else address / size) =
        (address + 1) / size ∧
      (if address % size + 1 = size then 0 else address % size + 1) = (address + 1) % size := by
  have whole := Nat.div_add_mod address size
  have below := Nat.mod_lt address positive
  generalize address / size = block at *
  generalize address % size = offset at *
  subst whole
  by_cases last : offset + 1 = size
  · rw [if_pos last, if_pos last, Nat.add_assoc, last, ← Nat.mul_succ,
      Nat.mul_div_cancel_left _ positive, Nat.mul_mod_right]
    exact ⟨rfl, rfl⟩
  · rw [if_neg last, if_neg last, Nat.add_assoc, Nat.mul_add_div positive, Nat.mul_add_mod,
      Nat.div_eq_of_lt (by omega), Nat.mod_eq_of_lt (by omega)]
    exact ⟨rfl, rfl⟩

end Wisebot.Lib.Blocks
