import Mathlib.Algebra.Ring.Nat
import Mathlib.Data.List.TakeWhile

namespace Wisebot.Lib.Decimal

/-! Decimal numbers as bytes: the number that a text begins with, and what is
printed for a number. -/

def isDigit (byte : UInt8) : Bool := 48 ≤ byte && byte ≤ 57

/-- The number that the digits at the begin of a text continue. -/
def readFrom : (value : Nat) → List UInt8 → Nat
  | value, [] => value
  | value, byte :: text =>
    if isDigit byte then readFrom (10 * value + (byte.toNat - 48)) text else value

def ofChar (char : Char) : UInt8 := UInt8.ofNat char.toNat

/-- The decimal digits of a number. -/
def print (number : Nat) : List UInt8 := (Nat.toDigits 10 number).map ofChar

theorem toNat_range_of_isDigit {char : Char} (digit : char.isDigit = true) :
    48 ≤ char.toNat ∧ char.toNat ≤ 57 := by
  rw [Char.isDigit, Bool.and_eq_true, decide_eq_true_iff, decide_eq_true_iff] at digit
  exact ⟨UInt32.le_iff_toNat_le.mp digit.1, UInt32.le_iff_toNat_le.mp digit.2⟩

theorem toNat_ofChar {char : Char} (digit : char.isDigit = true) :
    (ofChar char).toNat = char.toNat := by
  have range := toNat_range_of_isDigit digit
  rw [ofChar, UInt8.toNat_ofNat']
  omega

theorem isDigit_ofChar {char : Char} (digit : char.isDigit = true) :
    isDigit (ofChar char) = true := by
  have range := toNat_range_of_isDigit digit
  rw [isDigit, Bool.and_eq_true, decide_eq_true_iff, decide_eq_true_iff,
    UInt8.le_iff_toNat_le, UInt8.le_iff_toNat_le, toNat_ofChar digit]
  exact range

theorem readFrom_map {chars : List Char} (digits : ∀ char ∈ chars, char.isDigit = true)
    (value : Nat) (rest : List UInt8) :
    readFrom value (chars.map ofChar ++ rest) =
      readFrom (Nat.ofDigitChars 10 chars value) rest := by
  induction chars generalizing value with
  | nil => rfl
  | cons char chars induction =>
    have digit := digits char List.mem_cons_self
    have later := induction fun other member => digits other (List.mem_cons_of_mem _ member)
    rw [List.map_cons, List.cons_append, readFrom, if_pos (isDigit_ofChar digit),
      toNat_ofChar digit, later, Nat.ofDigitChars_cons]
    rfl

/-- A text that begins with no digit. -/
def Ends (rest : List UInt8) : Prop := ∀ byte, rest.head? = some byte → isDigit byte = false

theorem Ends.readFrom {rest : List UInt8} (ends : Ends rest) (value : Nat) :
    Decimal.readFrom value rest = value := by
  cases rest with
  | nil => rfl
  | cons byte text =>
    rw [Decimal.readFrom, ends byte rfl]
    rfl

theorem isDigit_toDigits (number : Nat) :
    ∀ char ∈ Nat.toDigits 10 number, char.isDigit = true := fun _ member =>
  Nat.isDigit_of_mem_toDigits (by decide) (by decide) member

/-- A printed number is read back. -/
theorem readFrom_print (number : Nat) {rest : List UInt8} (ends : Ends rest) :
    readFrom 0 (print number ++ rest) = number := by
  rw [print, readFrom_map (isDigit_toDigits number), Nat.ofDigitChars_ten_toDigits,
    ends.readFrom]

theorem isDigit_of_mem_print {number : Nat} {byte : UInt8} (member : byte ∈ print number) :
    isDigit byte = true := by
  obtain ⟨char, isChar, rfl⟩ := List.mem_map.mp member
  exact isDigit_ofChar (isDigit_toDigits number char isChar)

theorem print_ne_nil (number : Nat) : print number ≠ [] := by
  rw [print, ne_eq, List.map_eq_nil_iff]
  exact Nat.toDigits_ne_nil

theorem length_print_le {number width : Nat} (positive : 0 < width) (small : number < 10 ^ width) :
    (print number).length ≤ width := by
  rw [print, List.length_map]
  exact (Nat.length_toDigits_le_iff (by decide) positive).mpr small

end Wisebot.Lib.Decimal
