import Mathlib.Algebra.Ring.Nat

namespace Wisebot.Lib.Bits

/-! Bit ranges of a fixed-width record. -/

variable {width size : Nat}

def load (record : BitVec width) (start size : Nat) : BitVec size :=
  record.extractLsb' start size

def store (record : BitVec width) (start : Nat) (value : BitVec size) : BitVec width :=
  (record &&& ~~~((BitVec.allOnes size).setWidth width <<< start)) |||
    (value.setWidth width <<< start)

variable {record other : BitVec width} {start : Nat} {value : BitVec size}

theorem getLsbD_store {index : Nat} (bound : index < width) :
    (store record start value).getLsbD index =
      if start ≤ index ∧ index < start + size then value.getLsbD (index - start)
      else record.getLsbD index := by
  simp only [store, BitVec.getLsbD_or, BitVec.getLsbD_and, BitVec.getLsbD_not,
    BitVec.getLsbD_shiftLeft, BitVec.getLsbD_setWidth, BitVec.getLsbD_allOnes, bound,
    decide_true, Bool.true_and]
  by_cases behind : start ≤ index
  · by_cases within : index < start + size
    · have inSize : index - start < size := by omega
      have inWidth : index - start < width := by omega
      have notBefore : ¬ index < start := by omega
      simp [behind, within, inSize, inWidth, notBefore]
    · have outside : ¬ index - start < size := by omega
      have zero : value.getLsbD (index - start) = false :=
        BitVec.getLsbD_of_ge _ _ (by omega)
      simp [within, outside, zero]
  · have before : index < start := by omega
    simp [behind, before]

theorem getLsbD_store_outside {index : Nat}
    (outside : index < start ∨ start + size ≤ index) :
    (store record start value).getLsbD index = record.getLsbD index := by
  by_cases bound : index < width
  · rw [getLsbD_store bound, if_neg (by omega)]
  · rw [BitVec.getLsbD_of_ge _ _ (by omega), BitVec.getLsbD_of_ge _ _ (by omega)]

theorem load_congr {size : Nat}
    (same : ∀ index, start ≤ index → index < start + size →
      other.getLsbD index = record.getLsbD index) :
    load other start size = load record start size := by
  apply BitVec.eq_of_getLsbD_eq
  intro index bound
  simp only [load, BitVec.getLsbD_extractLsb', bound, decide_true, Bool.true_and]
  exact same _ (by omega) (by omega)

theorem load_store (fits : start + size ≤ width) :
    load (store record start value) start size = value := by
  apply BitVec.eq_of_getLsbD_eq
  intro index bound
  simp only [load, BitVec.getLsbD_extractLsb', bound, decide_true, Bool.true_and]
  rw [getLsbD_store (by omega), if_pos (by omega), Nat.add_sub_cancel_left]

end Wisebot.Lib.Bits
