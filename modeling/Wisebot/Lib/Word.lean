import Mathlib.Algebra.Ring.Nat
import Mathlib.Tactic.Ring

namespace Wisebot.Lib

/-! Little-endian machine words as byte strings. -/

def encodeWord : (width value : Nat) → List UInt8
  | 0, _ => []
  | width + 1, value => UInt8.ofNat value :: encodeWord width (value / 256)

def decodeWord (bytes : List UInt8) : Nat :=
  bytes.foldr (fun byte rest => byte.toNat + 256 * rest) 0

@[simp] theorem length_encodeWord (width value : Nat) :
    (encodeWord width value).length = width := by
  induction width generalizing value with
  | zero => rfl
  | succ width induction => simp [encodeWord, induction]

@[simp] theorem take_encodeWord (width value : Nat) :
    (encodeWord width value).take width = encodeWord width value :=
  List.take_of_length_le (length_encodeWord width value).le

theorem drop_encodeWord_append {width count : Nat} (value : Nat) (rest : List UInt8)
    (past : width ≤ count) :
    (encodeWord width value ++ rest).drop count = rest.drop (count - width) := by
  rw [List.drop_append, List.drop_eq_nil_of_le (by simpa using past),
    length_encodeWord, List.nil_append]

theorem decodeWord_encodeWord {width value : Nat} (fits : value < 256 ^ width) :
    decodeWord (encodeWord width value) = value := by
  induction width generalizing value with
  | zero =>
    have zero : value = 0 := by simpa using fits
    simp [zero, encodeWord, decodeWord]
  | succ width induction =>
    have rest : value / 256 < 256 ^ width := by
      rw [pow_succ] at fits
      exact Nat.div_lt_of_lt_mul (by rwa [Nat.mul_comm] at fits)
    have step := induction rest
    simp only [decodeWord] at step
    simp only [encodeWord, decodeWord, List.foldr_cons, step, UInt8.toNat_ofNat']
    omega

end Wisebot.Lib
