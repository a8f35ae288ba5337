import Mathlib.Data.List.Forall2
import Wisebot.Cdm.Reading

namespace Wisebot.Cdm

open Lib

/-! What the parser makes of fields that are laid out as the writer lays them out. -/

theorem pass_chunk {goOn : UInt8 → Bool} (chunk : List UInt8)
    (passed : ∀ byte ∈ chunk, goOn byte = true) (before after : List UInt8) (room pos : Nat) :
    pass (before ++ (chunk ++ after)) goOn (chunk.length + room) ⟨before.length, pos⟩ =
      pass (before ++ (chunk ++ after)) goOn room
        ⟨before.length + chunk.length, pos + chunk.length⟩ := by
  induction chunk generalizing before pos with
  | nil => simp
  | cons byte chunk induction =>
    have here : (before ++ (byte :: chunk ++ after))[before.length]? = some byte := by simp
    have later := induction (fun other member => passed other (List.mem_cons_of_mem _ member))
      (before ++ [byte]) (pos + 1)
    rw [List.length_cons, Nat.add_right_comm, pass]
    simp only [here, passed byte List.mem_cons_self, if_true]
    simpa [Nat.add_assoc, Nat.add_comm 1] using later

theorem pass_stops {goOn : UInt8 → Bool} {chunk : List UInt8}
    (passed : ∀ byte ∈ chunk, goOn byte = true) (before : List UInt8) {stop : UInt8}
    (stops : goOn stop = false) (after : List UInt8) {room : Nat} (enough : chunk.length < room)
    (pos : Nat) :
    pass (before ++ (chunk ++ stop :: after)) goOn room ⟨before.length, pos⟩ =
      .ok ⟨before.length + chunk.length, pos + chunk.length⟩ := by
  obtain ⟨rest, rfl⟩ : ∃ rest, room = chunk.length + (rest + 1) :=
    ⟨room - chunk.length - 1, by omega⟩
  rw [pass_chunk chunk passed, pass]
  simp [stops]

theorem pass_ends {goOn : UInt8 → Bool} {chunk : List UInt8}
    (passed : ∀ byte ∈ chunk, goOn byte = true) (before after : List UInt8) (pos : Nat) :
    pass (before ++ (chunk ++ after)) goOn chunk.length ⟨before.length, pos⟩ =
      .ok ⟨before.length + chunk.length, pos + chunk.length⟩ := by
  have passes := pass_chunk chunk passed before after 0 pos
  rw [Nat.add_zero] at passes
  rw [passes, pass]

theorem passTil_string {data before string after : List UInt8} {term : UInt8} {cursor : Cursor}
    {maxPos : Nat} (noTerm : term ∉ string) (isData : data = before ++ (string ++ term :: after))
    (isPlace : cursor.buf = before.length) (room : string.length < maxPos - cursor.pos) :
    passTil data term cursor maxPos =
      .ok ⟨cursor.buf + string.length, cursor.pos + string.length⟩ := by
  have passed : ∀ byte ∈ string, decide (byte ≠ term) = true := fun byte member =>
    decide_eq_true fun isTerm => noTerm (isTerm ▸ member)
  rcases cursor with ⟨buf, pos⟩
  obtain rfl : buf = before.length := isPlace
  rw [isData]
  exact pass_stops passed before (by simp) after room pos

theorem endString_append (before : List UInt8) (byte : UInt8) (after : List UInt8) (pos : Nat) :
    endString (before ++ byte :: after) ⟨before.length, pos⟩ =
      .ok (before ++ 0 :: after, ⟨before.length + 1, pos + 1⟩) := by
  rw [endString, if_pos (by simp)]
  simp

theorem endString_name (before name after : List UInt8) (pos : Nat) :
    endString (before ++ (name ++ 9 :: after)) ⟨before.length + name.length, pos⟩ =
      .ok (before ++ (name ++ 0 :: after), ⟨before.length + name.length + 1, pos + 1⟩) := by
  simpa using endString_append (before ++ name) 9 after pos

theorem stringAt_append (before : List UInt8) {string : List UInt8} (noZero : 0 ∉ string)
    (after : List UInt8) :
    stringAt (before ++ (string ++ 0 :: after)) before.length = string := by
  have passed : ∀ byte ∈ string, decide (byte ≠ 0) = true := by
    intro byte member
    have nonzero : byte ≠ 0 := fun isZero => noZero (isZero ▸ member)
    simpa using nonzero
  rw [stringAt, List.drop_left, List.takeWhile_append_of_pos passed,
    List.takeWhile_cons_of_neg (by simp), List.append_nil]

theorem not_isSpace_of_isDigit {byte : UInt8} (digit : Decimal.isDigit byte = true) :
    isSpace byte = false ∧ byte ≠ 45 ∧ byte ≠ 43 := by
  rw [Decimal.isDigit, Bool.and_eq_true, decide_eq_true_iff, decide_eq_true_iff,
    UInt8.le_iff_toNat_le, UInt8.le_iff_toNat_le] at digit
  have lower : 48 ≤ byte.toNat := digit.1
  refine ⟨?_, ?_, ?_⟩
  · rw [isSpace, Bool.or_eq_false_iff, Bool.and_eq_false_iff, decide_eq_false_iff_not,
      decide_eq_false_iff_not, decide_eq_false_iff_not, UInt8.le_iff_toNat_le (b := 13)]
    refine ⟨?_, Or.inr (not_le.mpr (lt_of_lt_of_le (by decide) lower))⟩
    rintro rfl
    exact absurd lower (by decide)
  · rintro rfl
    exact absurd lower (by decide)
  · rintro rfl
    exact absurd lower (by decide)

theorem atoi_print {blanks : List UInt8} (isBlank : ∀ byte ∈ blanks, isSpace byte = true)
    {number : Nat} (small : number < 2147483648) {rest : List UInt8} (ends : Decimal.Ends rest) :
    atoi (blanks ++ (Decimal.print number ++ rest)) = number := by
  obtain ⟨byte, digits, isPrinted⟩ := List.exists_cons_of_ne_nil (Decimal.print_ne_nil number)
  have digit : Decimal.isDigit byte = true :=
    Decimal.isDigit_of_mem_print (isPrinted ▸ List.mem_cons_self)
  obtain ⟨notSpace, notMinus, notPlus⟩ := not_isSpace_of_isDigit digit
  have value := Decimal.readFrom_print number ends
  have dropped : (blanks ++ (Decimal.print number ++ rest)).dropWhile isSpace =
      byte :: (digits ++ rest) := by
    rw [List.dropWhile_append_of_pos isBlank, isPrinted, List.cons_append,
      List.dropWhile_cons_of_neg (by simp [notSpace])]
  rw [isPrinted, List.cons_append] at value
  rw [atoi, dropped]
  split
  next isMinus => exact absurd (List.cons.inj isMinus).1 notMinus
  next isPlus => exact absurd (List.cons.inj isPlus).1 notPlus
  next =>
    rw [value, Nat.min_eq_left (by omega)]
    exact Int.bmod_eq_of_le (by omega) (by omega)

theorem toUint32_natCast {number : Nat} (small : number < 4294967296) :
    toUint32 (number : Int) = number := by
  rw [toUint32]
  omega

/-- A short field as it is laid out: a value with its zero and `zeros` more behind it. -/
structure ShortEntry where
  name : List UInt8
  value : List UInt8
  zeros : Nat
  noTab : 9 ∉ name
  nameNoZero : 0 ∉ name
  noZero : 0 ∉ value

namespace ShortEntry

def behindName (entry : ShortEntry) : List UInt8 :=
  entry.value ++ 0 :: List.replicate entry.zeros 0

def bytes (entry : ShortEntry) : List UInt8 := entry.name ++ 9 :: entry.behindName

def named (entry : ShortEntry) : List UInt8 := entry.name ++ 0 :: entry.behindName

theorem length_named (entry : ShortEntry) : entry.named.length = entry.bytes.length := by
  simp [named, bytes]

theorem length_bytes (entry : ShortEntry) :
    entry.bytes.length = entry.name.length + 1 + (entry.value.length + (entry.zeros + 1)) := by
  simp [bytes, behindName]
  omega

theorem bytes_cons (entry : ShortEntry) :
    ∃ byte rest, entry.bytes = byte :: rest ∧ byte ≠ 0 := by
  rw [bytes]
  cases isName : entry.name with
  | nil => exact ⟨9, _, rfl, by decide⟩
  | cons byte name =>
    refine ⟨byte, _, rfl, ?_⟩
    rintro rfl
    exact entry.nameNoZero (isName ▸ List.mem_cons_self)

end ShortEntry

def shortfieldBytes (entries : List ShortEntry) : List UInt8 := entries.flatMap ShortEntry.bytes

def shortfieldNamed (entries : List ShortEntry) : List UInt8 := entries.flatMap ShortEntry.named

theorem length_shortfieldNamed (entries : List ShortEntry) :
    (shortfieldNamed entries).length = (shortfieldBytes entries).length := by
  simp [shortfieldNamed, shortfieldBytes, List.length_flatMap, ShortEntry.length_named]

/-- What the parser makes of entries that begin at `start`. -/
def shortfieldsAt : (start : Nat) → List ShortEntry → List Shortfield
  | _, [] => []
  | start, entry :: rest =>
    ⟨start, start + entry.name.length + 1, (entry.value.length + entry.zeros : Nat)⟩ ::
      shortfieldsAt (start + entry.bytes.length) rest

theorem passNot_zeros (zeros : Nat) (before : List UInt8) (rest : List ShortEntry)
    (tail : List UInt8) (pos : Nat) :
    passNot (before ++ (List.replicate (zeros + 1) 0 ++ (shortfieldBytes rest ++ tail))) 0
        ⟨before.length, pos⟩ (pos + (zeros + 1) + (shortfieldBytes rest).length) =
      .ok ⟨before.length + (zeros + 1), pos + (zeros + 1)⟩ := by
  have passed : ∀ byte ∈ List.replicate (zeros + 1) (0 : UInt8), decide (byte = 0) = true := by
    intro byte member
    rw [(List.mem_replicate.mp member).2]
    rfl
  have room : pos + (zeros + 1) + (shortfieldBytes rest).length - pos =
      zeros + 1 + (shortfieldBytes rest).length := by omega
  rw [passNot, room]
  cases rest with
  | nil =>
    have ends := pass_ends passed before tail pos
    rw [List.length_replicate] at ends
    exact ends
  | cons entry rest =>
    obtain ⟨byte, later, isBytes, nonzero⟩ := entry.bytes_cons
    have stops := pass_stops passed before (decide_eq_false nonzero)
      (later ++ shortfieldBytes rest ++ tail)
      (show (List.replicate (zeros + 1) (0 : UInt8)).length <
        zeros + 1 + (shortfieldBytes (entry :: rest)).length by
          simp [shortfieldBytes, isBytes]) pos
    rw [List.length_replicate] at stops
    simpa [shortfieldBytes, isBytes] using stops

theorem readShortfields_entries (entries : List ShortEntry) (before tail : List UInt8)
    (pos : Nat) {fuel : Nat} (enough : entries.length < fuel) :
    readShortfields (pos + (shortfieldBytes entries).length) fuel
        (before ++ (shortfieldBytes entries ++ tail)) ⟨before.length, pos⟩ =
      .ok (shortfieldsAt before.length entries, before ++ (shortfieldNamed entries ++ tail),
        ⟨before.length + (shortfieldBytes entries).length,
          pos + (shortfieldBytes entries).length⟩) := by
  induction entries generalizing before pos fuel with
  | nil =>
    obtain ⟨fuel, rfl⟩ := Nat.exists_eq_succ_of_ne_zero (Nat.ne_of_gt enough)
    simp [readShortfields, shortfieldBytes, shortfieldNamed, shortfieldsAt]
  | cons entry rest induction =>
    obtain ⟨fuel, rfl⟩ := Nat.exists_eq_succ_of_ne_zero (Nat.ne_of_gt (Nat.zero_lt_of_lt enough))
    have length := entry.length_bytes
    have total : (shortfieldBytes (entry :: rest)).length =
        entry.bytes.length + (shortfieldBytes rest).length := by
      simp [shortfieldBytes]
    let behindTab := entry.value ++ 0 ::
      (List.replicate entry.zeros 0 ++ (shortfieldBytes rest ++ tail))
    have layout : before ++ (shortfieldBytes (entry :: rest) ++ tail) =
        before ++ (entry.name ++ 9 :: behindTab) := by
      simp [shortfieldBytes, ShortEntry.bytes, ShortEntry.behindName, behindTab]
    have atTab : passTil (before ++ (entry.name ++ 9 :: behindTab)) 9 ⟨before.length, pos⟩
        (pos + (entry.bytes.length + (shortfieldBytes rest).length)) =
          .ok ⟨before.length + entry.name.length, pos + entry.name.length⟩ :=
      passTil_string entry.noTab rfl rfl (by dsimp only; omega)
    have atEnd : passTil (before ++ (entry.name ++ 0 :: behindTab)) 0
        ⟨before.length + entry.name.length + 1, pos + entry.name.length + 1⟩
        (pos + (entry.bytes.length + (shortfieldBytes rest).length)) =
          .ok ⟨before.length + entry.name.length + 1 + entry.value.length,
            pos + entry.name.length + 1 + entry.value.length⟩ :=
      passTil_string entry.noZero
        (show _ = before ++ entry.name ++ [0] ++ (entry.value ++ 0 ::
          (List.replicate entry.zeros 0 ++ (shortfieldBytes rest ++ tail))) by simp [behindTab])
        (by simp only [List.length_append, List.length_singleton]) (by dsimp only; omega)
    have behind : passNot (before ++ (entry.name ++ 0 :: behindTab)) 0
        ⟨before.length + entry.name.length + 1 + entry.value.length,
          pos + entry.name.length + 1 + entry.value.length⟩
        (pos + (entry.bytes.length + (shortfieldBytes rest).length)) =
          .ok ⟨before.length + entry.bytes.length, pos + entry.bytes.length⟩ := by
      have zeros := passNot_zeros entry.zeros (before ++ entry.name ++ [0] ++ entry.value)
        rest tail (pos + entry.name.length + 1 + entry.value.length)
      have place : (before ++ entry.name ++ [0] ++ entry.value).length =
          before.length + entry.name.length + 1 + entry.value.length := by
        simp
        omega
      rw [place] at zeros
      simpa [behindTab, List.replicate_succ, length, Nat.add_assoc] using zeros
    have later : readShortfields (pos + (entry.bytes.length + (shortfieldBytes rest).length)) fuel
        (before ++ (entry.name ++ 0 :: behindTab))
        ⟨before.length + entry.bytes.length, pos + entry.bytes.length⟩ =
          .ok (shortfieldsAt (before.length + entry.bytes.length) rest,
            before ++ (shortfieldNamed (entry :: rest) ++ tail),
            ⟨before.length + (entry.bytes.length + (shortfieldBytes rest).length),
              pos + (entry.bytes.length + (shortfieldBytes rest).length)⟩) := by
      have parsed := induction (before ++ entry.named) (pos + entry.bytes.length)
        (Nat.lt_of_succ_lt_succ enough)
      rw [List.length_append, entry.length_named] at parsed
      simpa [ShortEntry.named, ShortEntry.behindName, behindTab, shortfieldNamed,
        Nat.add_assoc] using parsed
    have size : ((pos + entry.bytes.length : Nat) : Int) -
        (pos + entry.name.length + 1 : Nat) - 1 = (entry.value.length + entry.zeros : Nat) := by
      omega
    rw [layout, total, readShortfields, if_pos (by dsimp only; omega)]
    simp only [atTab, endString_name, atEnd, behind, later, bind, Except.bind, shortfieldsAt, size]

theorem shortfieldsAt_strings (entries : List ShortEntry) (before tail : List UInt8) :
    List.Forall₂ (fun field entry =>
        stringAt (before ++ (shortfieldNamed entries ++ tail)) field.name = entry.name ∧
          stringAt (before ++ (shortfieldNamed entries ++ tail)) field.value = entry.value)
      (shortfieldsAt before.length entries) entries := by
  induction entries generalizing before with
  | nil => exact List.Forall₂.nil
  | cons entry rest induction =>
    have later := induction (before ++ entry.named)
    have length := entry.length_named
    have layout : before ++ (shortfieldNamed (entry :: rest) ++ tail) =
        before ++ entry.named ++ (shortfieldNamed rest ++ tail) := by
      simp [shortfieldNamed]
    rw [List.length_append, length, ← layout] at later
    refine List.Forall₂.cons ⟨?_, ?_⟩ later
    · have name := stringAt_append before entry.nameNoZero
        (entry.behindName ++ (shortfieldNamed rest ++ tail))
      simpa [shortfieldNamed, ShortEntry.named] using name
    · have value := stringAt_append (before ++ entry.name ++ [0]) entry.noZero
        (List.replicate entry.zeros 0 ++ (shortfieldNamed rest ++ tail))
      simpa [shortfieldNamed, ShortEntry.named, ShortEntry.behindName, Nat.add_assoc] using value

/-- The header of a long field as it is laid out, with the value whose body begins at `text`. -/
structure LongEntry where
  name : List UInt8
  text : Nat
  value : List UInt8
  noTab : 9 ∉ name
  nameNoZero : 0 ∉ name

namespace LongEntry

def next (entry : LongEntry) : Nat := entry.text + entry.value.length + 1

def behindName (entry : LongEntry) : List UInt8 :=
  Decimal.print entry.text ++ 9 :: (Decimal.print entry.next ++ [0])

def bytes (entry : LongEntry) : List UInt8 := entry.name ++ 9 :: entry.behindName

def named (entry : LongEntry) : List UInt8 := entry.name ++ 0 :: entry.behindName

theorem length_named (entry : LongEntry) : entry.named.length = entry.bytes.length := by
  simp [named, bytes]

theorem length_bytes (entry : LongEntry) :
    entry.bytes.length = entry.name.length + 1 + ((Decimal.print entry.text).length + 1 +
      ((Decimal.print entry.next).length + 1)) := by
  simp [bytes, behindName]
  omega

end LongEntry

def longfieldBytes (entries : List LongEntry) : List UInt8 := entries.flatMap LongEntry.bytes

def longfieldNamed (entries : List LongEntry) : List UInt8 := entries.flatMap LongEntry.named

/-- What the parser makes of headers that begin at `start`. -/
def longfieldsAt : (start : Nat) → List LongEntry → List Longfield
  | _, [] => []
  | start, entry :: rest =>
    ⟨start, entry.text, entry.next⟩ :: longfieldsAt (start + entry.bytes.length) rest

theorem ends_of_tab (rest : List UInt8) : Decimal.Ends (9 :: rest) := by
  intro byte isHead
  obtain rfl := Option.some.inj isHead
  rfl

theorem ends_of_zero (rest : List UInt8) : Decimal.Ends (0 :: rest) := by
  intro byte isHead
  obtain rfl := Option.some.inj isHead
  rfl

theorem not_mem_print {number : Nat} {term : UInt8} (noDigit : Decimal.isDigit term = false) :
    term ∉ Decimal.print number := by
  intro member
  rw [Decimal.isDigit_of_mem_print member] at noDigit
  cases noDigit

theorem readLongfields_entries (entries : List LongEntry)
    (small : ∀ entry ∈ entries, entry.next < 2147483648) (before tail : List UInt8)
    (pos : Nat) {fuel : Nat} (enough : entries.length < fuel) :
    readLongfields (pos + (longfieldBytes entries).length) fuel
        (before ++ (longfieldBytes entries ++ tail)) ⟨before.length, pos⟩ =
      .ok (longfieldsAt before.length entries,
        before ++ (longfieldNamed entries ++ tail)) := by
  induction entries generalizing before pos fuel with
  | nil =>
    obtain ⟨fuel, rfl⟩ := Nat.exists_eq_succ_of_ne_zero (Nat.ne_of_gt enough)
    simp [readLongfields, longfieldBytes, longfieldNamed, longfieldsAt]
  | cons entry rest induction =>
    obtain ⟨fuel, rfl⟩ := Nat.exists_eq_succ_of_ne_zero (Nat.ne_of_gt (Nat.zero_lt_of_lt enough))
    have nextSmall : entry.next < 2147483648 := small entry List.mem_cons_self
    have textSmall : entry.text < 2147483648 := by
      rw [LongEntry.next] at nextSmall
      omega
    have length := entry.length_bytes
    have total : (longfieldBytes (entry :: rest)).length =
        entry.bytes.length + (longfieldBytes rest).length := by
      simp [longfieldBytes]
    let behindText := Decimal.print entry.next ++ 0 :: (longfieldBytes rest ++ tail)
    let behindTab := Decimal.print entry.text ++ 9 :: behindText
    have layout : before ++ (longfieldBytes (entry :: rest) ++ tail) =
        before ++ (entry.name ++ 9 :: behindTab) := by
      simp [longfieldBytes, LongEntry.bytes, LongEntry.behindName, behindTab, behindText]
    have atTab : passTil (before ++ (entry.name ++ 9 :: behindTab)) 9 ⟨before.length, pos⟩
        (pos + (entry.bytes.length + (longfieldBytes rest).length)) =
          .ok ⟨before.length + entry.name.length, pos + entry.name.length⟩ :=
      passTil_string entry.noTab rfl rfl (by dsimp only; omega)
    have nextTab : passTil (before ++ (entry.name ++ 0 :: behindTab)) 9
        ⟨before.length + entry.name.length + 1, pos + entry.name.length + 1⟩
        (pos + (entry.bytes.length + (longfieldBytes rest).length)) =
          .ok ⟨before.length + entry.name.length + 1 + (Decimal.print entry.text).length,
            pos + entry.name.length + 1 + (Decimal.print entry.text).length⟩ :=
      passTil_string (not_mem_print rfl)
        (show _ = before ++ entry.name ++ [0] ++ (Decimal.print entry.text ++ 9 :: behindText) by
          simp [behindTab])
        (by simp only [List.length_append, List.length_singleton]) (by dsimp only; omega)
    have atEnd : passTil (before ++ (entry.name ++ 0 :: behindTab)) 0
        ⟨before.length + entry.name.length + 1 + (Decimal.print entry.text).length + 1,
          pos + entry.name.length + 1 + (Decimal.print entry.text).length + 1⟩
        (pos + (entry.bytes.length + (longfieldBytes rest).length)) =
          .ok ⟨before.length + entry.name.length + 1 + (Decimal.print entry.text).length + 1 +
              (Decimal.print entry.next).length,
            pos + entry.name.length + 1 + (Decimal.print entry.text).length + 1 +
              (Decimal.print entry.next).length⟩ :=
      passTil_string (not_mem_print rfl)
        (show _ = before ++ entry.name ++ [0] ++ Decimal.print entry.text ++ [9] ++
          (Decimal.print entry.next ++ 0 :: (longfieldBytes rest ++ tail)) by
            simp [behindTab, behindText])
        (by simp only [List.length_append, List.length_singleton]) (by dsimp only; omega)
    have textAt : toUint32 (atoi ((before ++ (entry.name ++ 0 :: behindTab)).drop
        (before.length + entry.name.length + 1))) = entry.text := by
      rw [show before ++ (entry.name ++ 0 :: behindTab) =
          before ++ entry.name ++ [0] ++ ([] ++ behindTab) by simp,
        List.drop_left' (by simp only [List.length_append, List.length_singleton]),
        atoi_print (by simp) textSmall (ends_of_tab _), toUint32_natCast (by omega)]
    have nextAt : toUint32 (atoi ((before ++ (entry.name ++ 0 :: behindTab)).drop
        (before.length + entry.name.length + 1 + (Decimal.print entry.text).length + 1))) =
          entry.next := by
      rw [show before ++ (entry.name ++ 0 :: behindTab) =
          before ++ entry.name ++ [0] ++ Decimal.print entry.text ++ [9] ++ ([] ++ behindText) by
            simp [behindTab],
        List.drop_left' (by simp only [List.length_append, List.length_singleton]),
        atoi_print (by simp) nextSmall (ends_of_zero _), toUint32_natCast (by omega)]
    have later : readLongfields (pos + (entry.bytes.length + (longfieldBytes rest).length)) fuel
        (before ++ (entry.name ++ 0 :: behindTab))
        ⟨before.length + entry.name.length + 1 + (Decimal.print entry.text).length + 1 +
            (Decimal.print entry.next).length + 1,
          pos + entry.name.length + 1 + (Decimal.print entry.text).length + 1 +
            (Decimal.print entry.next).length + 1⟩ =
          .ok (longfieldsAt (before.length + entry.bytes.length) rest,
            before ++ (longfieldNamed (entry :: rest) ++ tail)) := by
      have parsed := induction
        (fun other member => small other (List.mem_cons_of_mem _ member))
        (before ++ entry.named) (pos + entry.bytes.length) (Nat.lt_of_succ_lt_succ enough)
      rw [List.length_append, entry.length_named, length] at parsed
      simpa [length, LongEntry.named, LongEntry.behindName, behindTab, behindText,
        longfieldNamed, Nat.add_assoc] using parsed
    rw [layout, total, readLongfields, if_pos (by dsimp only; omega)]
    simp only [atTab, endString_name, nextTab, atEnd, later, bind, Except.bind, longfieldsAt, textAt,
      nextAt]

theorem longfieldsAt_strings (entries : List LongEntry) (before tail : List UInt8) :
    List.Forall₂ (fun field entry =>
        stringAt (before ++ (longfieldNamed entries ++ tail)) field.name = entry.name ∧
          field.textPosition = entry.text ∧ field.nextPosition = entry.next)
      (longfieldsAt before.length entries) entries := by
  induction entries generalizing before with
  | nil => exact List.Forall₂.nil
  | cons entry rest induction =>
    have later := induction (before ++ entry.named)
    have layout : before ++ (longfieldNamed (entry :: rest) ++ tail) =
        before ++ entry.named ++ (longfieldNamed rest ++ tail) := by
      simp [longfieldNamed]
    rw [List.length_append, entry.length_named, ← layout] at later
    refine List.Forall₂.cons ⟨?_, rfl, rfl⟩ later
    have name := stringAt_append before entry.nameNoZero
      (entry.behindName ++ (longfieldNamed rest ++ tail))
    simpa [longfieldNamed, LongEntry.named] using name

end Wisebot.Cdm
