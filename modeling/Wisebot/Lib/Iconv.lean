import Mathlib.Algebra.Ring.Nat
import Mathlib.Data.List.Basic

namespace Wisebot.Lib

/-! `iconv` of the C library over a conversion of single characters. -/

inductive Errno where
  | EILSEQ
  | EINVAL
  | E2BIG
deriving DecidableEq

/-- The character at the head of the input takes bytes of it and becomes others, or it is
rejected. `fullFirst` is an `iconv` that reports a full output before it looks at the next
character. -/
structure Conversion where
  next : List UInt8 → Option (Nat × List UInt8)
  incomplete : List UInt8 → Bool
  fullFirst : Bool
  takes : ∀ {input output : List UInt8} {used : Nat}, next input = some (used, output) → 0 < used

structure Converted where
  errno : Option Errno
  rest : List UInt8
  output : List UInt8
deriving DecidableEq

namespace Conversion

variable (conversion : Conversion)

/-- No character becomes more bytes than that. -/
def Within (size : Nat) : Prop :=
  ∀ {input output : List UInt8} {used : Nat},
    conversion.next input = some (used, output) → output.length ≤ size

def rejection (input : List UInt8) : Errno :=
  if conversion.incomplete input then .EINVAL else .EILSEQ

def iconvFrom : (fuel : Nat) → (input : List UInt8) → (room : Nat) → Converted
  | 0, input, _ => ⟨none, input, []⟩
  | _ + 1, [], _ => ⟨none, [], []⟩
  | fuel + 1, byte :: input, room =>
    if conversion.fullFirst ∧ room = 0 then ⟨some .E2BIG, byte :: input, []⟩
    else
      match conversion.next (byte :: input) with
      | none => ⟨some (conversion.rejection (byte :: input)), byte :: input, []⟩
      | some (used, output) =>
        if output.length ≤ room then
          let behind := iconvFrom fuel ((byte :: input).drop used) (room - output.length)
          { behind with output := output ++ behind.output }
        else ⟨some .E2BIG, byte :: input, []⟩

/-- The longest part of the input that is convertible and fits into the room. -/
def iconv (input : List UInt8) (room : Nat) : Converted :=
  conversion.iconvFrom input.length input room

/-- What the characters become, `none` for a byte that is rejected. -/
def charactersFrom : (fuel : Nat) → (input : List UInt8) → List (Option (List UInt8))
  | 0, _ => []
  | _ + 1, [] => []
  | fuel + 1, byte :: input =>
    match conversion.next (byte :: input) with
    | none => none :: charactersFrom fuel input
    | some (used, output) => some output :: charactersFrom fuel ((byte :: input).drop used)

def characters (input : List UInt8) : List (Option (List UInt8)) :=
  conversion.charactersFrom input.length input

inductive Splits : (input : List UInt8) → List (Option (List UInt8)) → Prop
  | nil : Splits [] []
  | rejected {byte : UInt8} {input : List UInt8} {items : List (Option (List UInt8))}
      (isRejected : conversion.next (byte :: input) = none) (rest : Splits input items) :
      Splits (byte :: input) (none :: items)
  | converted {byte : UInt8} {input output : List UInt8} {used : Nat}
      {items : List (Option (List UInt8))}
      (isConverted : conversion.next (byte :: input) = some (used, output))
      (rest : Splits ((byte :: input).drop used) items) :
      Splits (byte :: input) (some output :: items)

variable {conversion} {input output : List UInt8} {items : List (Option (List UInt8))}

theorem length_drop_lt {byte : UInt8} {used : Nat}
    (isConverted : conversion.next (byte :: input) = some (used, output)) :
    ((byte :: input).drop used).length < (byte :: input).length := by
  have positive := conversion.takes isConverted
  rw [List.length_drop, List.length_cons]
  omega

theorem splits_charactersFrom {fuel : Nat} (enough : input.length ≤ fuel) :
    conversion.Splits input (conversion.charactersFrom fuel input) := by
  induction fuel generalizing input with
  | zero =>
    rw [List.eq_nil_of_length_eq_zero (Nat.le_zero.mp enough)]
    exact .nil
  | succ fuel induction =>
    cases input with
    | nil => exact .nil
    | cons byte input =>
      rcases isNext : conversion.next (byte :: input) with _ | ⟨used, output⟩
      · simp only [charactersFrom, isNext]
        exact .rejected isNext (induction (Nat.le_of_succ_le_succ enough))
      · simp only [charactersFrom, isNext]
        have shorter := length_drop_lt isNext
        exact .converted isNext (induction (by omega))

theorem splits_characters : conversion.Splits input (conversion.characters input) :=
  splits_charactersFrom (Nat.le_refl _)

/-- One call with so much room over the characters of its input: what it reports, what it
puts out, and the characters it leaves. -/
inductive Call (conversion : Conversion) : (room : Nat) → (items : List (Option (List UInt8))) →
    Option Errno → (output : List UInt8) → (behind : List (Option (List UInt8))) → Prop
  | ended {room : Nat} : Call conversion room [] none [] []
  | full {item : Option (List UInt8)} {items : List (Option (List UInt8))}
      (isFull : conversion.fullFirst = true) :
      Call conversion 0 (item :: items) (some .E2BIG) [] (item :: items)
  | rejected {room : Nat} {items : List (Option (List UInt8))} {errno : Errno}
      (looks : ¬ (conversion.fullFirst = true ∧ room = 0)) (isRejection : errno ≠ .E2BIG) :
      Call conversion room (none :: items) (some errno) [] (none :: items)
  | large {room : Nat} {output : List UInt8} {items : List (Option (List UInt8))}
      (isLarge : room < output.length) :
      Call conversion room (some output :: items) (some .E2BIG) [] (some output :: items)
  | converted {room : Nat} {output outputs : List UInt8}
      {items behind : List (Option (List UInt8))} {errno : Option Errno}
      (looks : ¬ (conversion.fullFirst = true ∧ room = 0)) (fits : output.length ≤ room)
      (rest : Call conversion (room - output.length) items errno outputs behind) :
      Call conversion room (some output :: items) errno (output ++ outputs) behind

theorem rejection_ne : conversion.rejection input ≠ .E2BIG := by
  unfold rejection
  split <;> simp

theorem Splits.iconvFrom (splits : conversion.Splits input items) {fuel : Nat}
    (enough : input.length ≤ fuel) (room : Nat) :
    ∃ behind, conversion.Splits (conversion.iconvFrom fuel input room).rest behind ∧
      conversion.Call room items (conversion.iconvFrom fuel input room).errno
        (conversion.iconvFrom fuel input room).output behind := by
  induction fuel generalizing input items room with
  | zero =>
    cases splits with
    | nil => exact ⟨[], .nil, .ended⟩
    | rejected _ _ => exact absurd enough (by simp)
    | converted _ _ => exact absurd enough (by simp)
  | succ fuel induction =>
    cases splits with
    | nil => exact ⟨[], .nil, .ended⟩
    | rejected isRejected rest =>
      by_cases isFull : conversion.fullFirst = true ∧ room = 0
      · simp only [Conversion.iconvFrom, if_pos isFull]
        obtain ⟨isFull, rfl⟩ := isFull
        exact ⟨_, .rejected isRejected rest, .full isFull⟩
      · simp only [Conversion.iconvFrom, if_neg isFull, isRejected]
        exact ⟨_, .rejected isRejected rest, .rejected isFull rejection_ne⟩
    | converted isConverted rest =>
      by_cases isFull : conversion.fullFirst = true ∧ room = 0
      · simp only [Conversion.iconvFrom, if_pos isFull]
        obtain ⟨isFull, rfl⟩ := isFull
        exact ⟨_, .converted isConverted rest, .full isFull⟩
      · simp only [Conversion.iconvFrom, if_neg isFull, isConverted]
        split
        case isTrue fits =>
          have shorter := length_drop_lt isConverted
          obtain ⟨behind, splits, call⟩ := induction rest (by omega) _
          exact ⟨behind, splits, .converted isFull fits call⟩
        case isFalse large =>
          exact ⟨_, .converted isConverted rest, .large (Nat.lt_of_not_le large)⟩

theorem Splits.iconv (splits : conversion.Splits input items) (room : Nat) :
    ∃ behind, conversion.Splits (conversion.iconv input room).rest behind ∧
      conversion.Call room items (conversion.iconv input room).errno
        (conversion.iconv input room).output behind :=
  splits.iconvFrom (Nat.le_refl _) room

/-- What all convertible characters become. -/
def conversions (items : List (Option (List UInt8))) : List UInt8 :=
  (items.filterMap id).flatten

@[simp] theorem conversions_nil : conversions [] = [] := rfl

@[simp] theorem conversions_none : conversions (none :: items) = conversions items := rfl

@[simp] theorem conversions_some :
    conversions (some output :: items) = output ++ conversions items := rfl

theorem Call.conversions_eq {room : Nat} {errno : Option Errno}
    {behind : List (Option (List UInt8))}
    (call : conversion.Call room items errno output behind) :
    conversions items = output ++ conversions behind := by
  induction call with
  | ended => rfl
  | full _ => rfl
  | rejected _ _ => rfl
  | large _ => rfl
  | converted _ _ _ induction => rw [conversions_some, induction, List.append_assoc]

theorem Call.length_le {room : Nat} {errno : Option Errno}
    {behind : List (Option (List UInt8))}
    (call : conversion.Call room items errno output behind) : behind.length ≤ items.length := by
  induction call with
  | ended => exact Nat.le_refl _
  | full _ => exact Nat.le_refl _
  | rejected _ _ => exact Nat.le_refl _
  | large _ => exact Nat.le_refl _
  | converted _ _ _ induction => exact Nat.le_succ_of_le induction

/-- A full output is not reported before a character that fits has been converted. -/
theorem Call.progress {room : Nat} {behind : List (Option (List UInt8))}
    (call : conversion.Call room items (some .E2BIG) output behind) (positive : 0 < room)
    (small : ∀ output, some output ∈ items → output.length ≤ room) :
    behind.length < items.length := by
  cases call with
  | full _ => exact absurd positive (Nat.lt_irrefl 0)
  | rejected _ isRejection => exact absurd rfl isRejection
  | large isLarge => exact absurd (small _ List.mem_cons_self) (Nat.not_le_of_lt isLarge)
  | converted _ _ rest => exact Nat.lt_succ_of_le rest.length_le

theorem Call.behind_of_rejected {room : Nat} {errno : Errno}
    {behind : List (Option (List UInt8))}
    (call : conversion.Call room items (some errno) output behind) (isRejection : errno ≠ .E2BIG) :
    ∃ others, behind = none :: others := by
  generalize isErrno : some errno = reported at call
  induction call with
  | ended => cases isErrno
  | full _ => exact absurd (Option.some.inj isErrno) isRejection
  | rejected _ _ => exact ⟨_, rfl⟩
  | large _ => exact absurd (Option.some.inj isErrno) isRejection
  | converted _ _ _ induction => exact induction isErrno

theorem Call.behind_of_ended {room : Nat} {behind : List (Option (List UInt8))}
    (call : conversion.Call room items none output behind) : behind = [] := by
  generalize isErrno : none = reported at call
  induction call with
  | ended => rfl
  | full _ => cases isErrno
  | rejected _ _ => cases isErrno
  | large _ => cases isErrno
  | converted _ _ _ induction => exact induction isErrno

theorem Splits.within {size : Nat} (splits : conversion.Splits input items)
    (within : conversion.Within size) :
    ∀ output, some output ∈ items → output.length ≤ size := by
  induction splits with
  | nil => simp
  | rejected _ _ induction => simpa using induction
  | converted isConverted _ induction =>
    intro output member
    rcases List.mem_cons.mp member with same | member
    · cases same
      exact within isConverted
    · exact induction output member

theorem Splits.length_le (splits : conversion.Splits input items) :
    items.length ≤ input.length := by
  induction splits with
  | nil => exact Nat.le_refl _
  | rejected _ _ induction => exact Nat.succ_le_succ induction
  | converted isConverted _ induction =>
    have shorter := length_drop_lt isConverted
    rw [List.length_cons]
    omega

end Conversion

end Wisebot.Lib
