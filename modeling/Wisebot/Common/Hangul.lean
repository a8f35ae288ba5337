import Wisebot.Lib.Comparing

namespace Wisebot.Common

open Lib.Comparing

/-! The order of Hangul strings in `common_util.c`. A `char` is signed, and the
bytes of a string are those from its address on; behind them all are zero. -/

/-- A byte as a `char`. -/
def charValue (byte : UInt8) : Int :=
  if byte.toNat < 128 then byte.toNat else byte.toNat - 256

def byteAt (bytes : List UInt8) (index : Nat) : UInt8 := bytes.getD index 0

@[simp] theorem byteAt_cons_zero (byte : UInt8) (bytes : List UInt8) :
    byteAt (byte :: bytes) 0 = byte := rfl

@[simp] theorem byteAt_cons_succ (byte : UInt8) (bytes : List UInt8) (index : Nat) :
    byteAt (byte :: bytes) (index + 1) = byteAt bytes index := rfl

theorem byteAt_append (front : List UInt8) (byte : UInt8) (rest : List UInt8) :
    byteAt (front ++ byte :: rest) front.length = byte := by
  simp [byteAt]

theorem byteAt_append_succ (front : List UInt8) (byte next : UInt8) (rest : List UInt8) :
    byteAt (front ++ byte :: next :: rest) (front.length + 1) = next := by
  have isNext := byteAt_append (front ++ [byte]) next rest
  rwa [List.append_assoc, List.length_append] at isNext

/-- `_IS_HANGUL` -/
def isHangul (byte : UInt8) : Bool := 0xb0 ≤ byte ∧ byte ≤ 0xfe

/-- `strncmp` of two bytes, the first of which are not zero. -/
def strncmpTwo (str1 str2 : List UInt8) : Int :=
  if byteAt str1 0 ≠ byteAt str2 0 then (byteAt str1 0).toNat - (byteAt str2 0).toNat
  else (byteAt str1 1).toNat - (byteAt str2 1).toNat

/-- `hangul_strncmp` from an index on, with as many bytes to go as `size` says. -/
def hangulStrncmp (size : Nat) (str1 str2 : List UInt8) : Int :=
  match size with
  | 0 => 0
  | rest + 1 =>
    let first := byteAt str1 0
    let second := byteAt str2 0
    if first ≠ 0 ∧ second = 0 then 1
    else if first = 0 ∧ second ≠ 0 then -1
    else if first = 0 ∧ second = 0 then 0
    else if isHangul first ∧ isHangul second then
      match rest with
      | 0 => charValue first - charValue second
      | last + 1 =>
        let diff := strncmpTwo str1 str2
        if diff ≠ 0 then diff else hangulStrncmp last (str1.drop 2) (str2.drop 2)
    else if isHangul first then -1
    else if isHangul second then 1
    else
      let diff := charValue first - charValue second
      if diff ≠ 0 then diff else hangulStrncmp rest (str1.drop 1) (str2.drop 1)

/-- The place of a character of one byte, behind all of Hangul. -/
def plainRank (byte : UInt8) : Nat := (65664 + charValue byte).toNat

def hangulRank (lead trail : UInt8) : Nat := 256 * lead.toNat + trail.toNat

/-- The characters of a text, each by its place; Hangul comes first, and half a
character at the end before all that begin with the same byte. -/
def characters : List UInt8 → List Nat
  | [] => []
  | [byte] => [if isHangul byte then hangulRank byte 0 else plainRank byte]
  | byte :: next :: rest =>
    if isHangul byte then hangulRank byte next :: characters rest
    else plainRank byte :: characters (next :: rest)

/-- The string at an address: its bytes before the first zero. -/
def cString (bytes : List UInt8) : List UInt8 := bytes.takeWhile (· ≠ 0)

/-- What the comparison looks at: like the characters, but the second byte of a
Hangul character may be the end of the string. -/
def compared : (size : Nat) → List UInt8 → List Nat
  | 0, _ => []
  | rest + 1, bytes =>
    if byteAt bytes 0 = 0 then []
    else if isHangul (byteAt bytes 0) then
      match rest with
      | 0 => [hangulRank (byteAt bytes 0) 0]
      | last + 1 =>
        hangulRank (byteAt bytes 0) (byteAt bytes 1) :: compared last (bytes.drop 2)
    else plainRank (byteAt bytes 0) :: compared rest (bytes.drop 1)

theorem charValue_bounds (byte : UInt8) : -128 ≤ charValue byte ∧ charValue byte < 128 := by
  have small := byte.toNat_lt
  rw [charValue]
  split <;> omega

theorem charValue_injective {first second : UInt8} (same : charValue first = charValue second) :
    first = second := by
  have small := first.toNat_lt
  have small' := second.toNat_lt
  rw [charValue, charValue] at same
  apply UInt8.toNat_inj.mp
  split at same <;> split at same <;> omega

theorem isHangul_iff {byte : UInt8} :
    isHangul byte = true ↔ 0xb0 ≤ byte.toNat ∧ byte.toNat ≤ 0xfe := by
  simp [isHangul, UInt8.le_iff_toNat_le]

theorem ne_zero_of_isHangul {byte : UInt8} (hangul : isHangul byte = true) : byte ≠ 0 := by
  rintro rfl
  exact absurd hangul (by decide)

theorem charValue_of_isHangul {byte : UInt8} (hangul : isHangul byte = true) :
    charValue byte = byte.toNat - 256 := by
  have range := isHangul_iff.mp hangul
  rw [charValue]
  split <;> omega

theorem hangulRank_lt {lead trail : UInt8} (hangul : isHangul lead = true) (byte : UInt8) :
    hangulRank lead trail < plainRank byte := by
  have range := isHangul_iff.mp hangul
  have small := trail.toNat_lt
  have bounds := charValue_bounds byte
  rw [hangulRank, plainRank]
  omega

theorem hangulRank_injective {lead lead' trail trail' : UInt8}
    (same : hangulRank lead trail = hangulRank lead' trail') : lead = lead' ∧ trail = trail' := by
  have small := trail.toNat_lt
  have small' := trail'.toNat_lt
  rw [hangulRank, hangulRank] at same
  exact ⟨UInt8.toNat_inj.mp (by omega), UInt8.toNat_inj.mp (by omega)⟩

theorem plainRank_injective {first second : UInt8} (same : plainRank first = plainRank second) :
    first = second := by
  have bounds := charValue_bounds first
  have bounds' := charValue_bounds second
  rw [plainRank, plainRank] at same
  exact charValue_injective (by omega)

theorem compared_end (size : Nat) (bytes : List UInt8) (atEnd : byteAt bytes 0 = 0) :
    compared size bytes = [] := by
  cases size with
  | zero => rfl
  | succ rest =>
    rw [compared.eq_def]
    simp only [if_pos atEnd]

theorem compared_plain (rest : Nat) (bytes : List UInt8) (inside : byteAt bytes 0 ≠ 0)
    (plain : isHangul (byteAt bytes 0) = false) :
    compared (rest + 1) bytes =
      plainRank (byteAt bytes 0) :: compared rest (bytes.drop 1) := by
  rw [compared.eq_def]
  simp only [if_neg inside, plain, Bool.false_eq_true, if_false]

theorem compared_half (bytes : List UInt8) (hangul : isHangul (byteAt bytes 0) = true) :
    compared 1 bytes = [hangulRank (byteAt bytes 0) 0] := by
  rw [compared.eq_def]
  simp only [if_neg (ne_zero_of_isHangul hangul), if_pos hangul]

theorem compared_hangul (last : Nat) (bytes : List UInt8)
    (hangul : isHangul (byteAt bytes 0) = true) :
    compared (last + 2) bytes =
      hangulRank (byteAt bytes 0) (byteAt bytes 1) :: compared last (bytes.drop 2) := by
  rw [compared.eq_def]
  simp only [if_neg (ne_zero_of_isHangul hangul), if_pos hangul]

theorem compared_inside (rest : Nat) (bytes : List UInt8) (inside : byteAt bytes 0 ≠ 0) :
    ∃ head tail, compared (rest + 1) bytes = head :: tail ∧
      (isHangul (byteAt bytes 0) = true → ∃ trail, head = hangulRank (byteAt bytes 0) trail) ∧
      (isHangul (byteAt bytes 0) = false → head = plainRank (byteAt bytes 0)) := by
  cases kind : isHangul (byteAt bytes 0) with
  | false => exact ⟨_, _, compared_plain _ _ inside kind, by simp, fun _ => rfl⟩
  | true =>
    cases rest with
    | zero => exact ⟨_, _, compared_half _ kind, fun _ => ⟨0, rfl⟩, by simp⟩
    | succ last => exact ⟨_, _, compared_hangul _ _ kind, fun _ => ⟨_, rfl⟩, by simp⟩

theorem sign_step (first second : Nat) (difference following : Int) (rest rest' : List Nat)
    (head : difference.sign = ((first : Int) - second).sign)
    (tail : following.sign = sign (compare rest rest')) :
    (if difference ≠ 0 then difference else following).sign =
      sign (compare (first :: rest) (second :: rest')) := by
  rw [List.compare_cons_cons]
  rcases Nat.lt_trichotomy first second with below | same | above
  · have negative : difference < 0 := by
      rw [← Int.sign_eq_neg_one_iff_neg, head, Int.sign_eq_neg_one_iff_neg]
      omega
    rw [if_pos (by omega), Int.sign_eq_neg_one_of_neg negative, Nat.compare_eq_lt.mpr below]
    rfl
  · have zero : difference = 0 := by
      rw [← Int.sign_eq_zero_iff_zero, head, same, Int.sub_self]
      rfl
    rw [if_neg (by omega), tail, Nat.compare_eq_eq.mpr same]
    rfl
  · have positive : 0 < difference := by
      rw [← Int.sign_eq_one_iff_pos, head, Int.sign_eq_one_iff_pos]
      omega
    rw [if_pos (by omega), Int.sign_eq_one_of_pos positive, Nat.compare_eq_gt.mpr above]
    rfl

theorem strncmpTwo_sign {str1 str2 : List UInt8} :
    (strncmpTwo str1 str2).sign =
      ((hangulRank (byteAt str1 0) (byteAt str1 1) : Int) -
        hangulRank (byteAt str2 0) (byteAt str2 1)).sign := by
  have small := (byteAt str1 1).toNat_lt
  have small' := (byteAt str2 1).toNat_lt
  rw [strncmpTwo, hangulRank, hangulRank]
  split
  · rename_i differ
    have apart : (byteAt str1 0).toNat ≠ (byteAt str2 0).toNat :=
      fun same => differ (UInt8.toNat_inj.mp same)
    rcases Nat.lt_or_gt_of_ne apart with below | above
    · rw [Int.sign_eq_neg_one_of_neg (by omega), Int.sign_eq_neg_one_of_neg (by omega)]
    · rw [Int.sign_eq_one_of_pos (by omega), Int.sign_eq_one_of_pos (by omega)]
  · rename_i same
    rw [not_not.mp same]
    congr 1
    omega

theorem charValue_sign_of_isHangul {first second : UInt8} (hangul : isHangul first = true)
    (hangul' : isHangul second = true) :
    (charValue first - charValue second).sign =
      ((hangulRank first 0 : Int) - hangulRank second 0).sign := by
  rw [charValue_of_isHangul hangul, charValue_of_isHangul hangul', hangulRank, hangulRank]
  rcases Nat.lt_trichotomy first.toNat second.toNat with below | same | above
  · rw [Int.sign_eq_neg_one_of_neg (by omega), Int.sign_eq_neg_one_of_neg (by omega)]
  · rw [same]
    simp
  · rw [Int.sign_eq_one_of_pos (by omega), Int.sign_eq_one_of_pos (by omega)]

theorem plainRank_sub (first second : UInt8) :
    (plainRank first : Int) - plainRank second = charValue first - charValue second := by
  have bounds := charValue_bounds first
  have bounds' := charValue_bounds second
  rw [plainRank, plainRank]
  omega

theorem compare_hangul_plain {rest rest' : Nat} {str1 str2 : List UInt8}
    (hangul : isHangul (byteAt str1 0) = true) (inside : byteAt str2 0 ≠ 0)
    (plain : isHangul (byteAt str2 0) = false) :
    compare (compared (rest + 1) str1) (compared (rest' + 1) str2) = .lt := by
  obtain ⟨head, tail, eq, isRank, -⟩ :=
    compared_inside rest str1 (ne_zero_of_isHangul hangul)
  obtain ⟨trail, rfl⟩ := isRank hangul
  rw [eq, compared_plain _ _ inside plain, List.compare_cons_cons,
    Nat.compare_eq_lt.mpr (hangulRank_lt hangul _)]
  rfl

theorem hangulStrncmp_sign (size : Nat) (str1 str2 : List UInt8) :
    (hangulStrncmp size str1 str2).sign =
      sign (compare (compared size str1) (compared size str2)) := by
  induction size using Nat.strongRecOn generalizing str1 str2 with
  | ind size ih =>
    cases size with
    | zero => rfl
    | succ rest =>
      rw [hangulStrncmp.eq_def]
      simp only
      split
      · rename_i longer
        obtain ⟨head, tail, eq, -, -⟩ := compared_inside rest str1 longer.1
        rw [eq, compared_end _ _ longer.2]
        rfl
      · rename_i notOver
        split
        · rename_i under
          obtain ⟨head, tail, eq, -, -⟩ := compared_inside rest str2 under.2
          rw [eq, compared_end _ _ under.1]
          rfl
        · rename_i notUnder
          split
          · rename_i both
            rw [compared_end _ _ both.1, compared_end _ _ both.2]
            rfl
          · rename_i notBoth
            have inside : byteAt str1 0 ≠ 0 := by grind
            have inside' : byteAt str2 0 ≠ 0 := by grind
            split
            · rename_i hangul
              cases rest with
              | zero =>
                rw [compared_half _ hangul.1, compared_half _ hangul.2]
                have step := sign_step _ _ _ 0 [] []
                  (charValue_sign_of_isHangul hangul.1 hangul.2) rfl
                rwa [ite_eq_left_iff.mpr fun zero => (not_not.mp zero).symm] at step
              | succ last =>
                rw [compared_hangul _ _ hangul.1, compared_hangul _ _ hangul.2]
                exact sign_step _ _ _ _ _ _ strncmpTwo_sign (ih last (by omega) _ _)
            · rename_i notHangul
              split
              · rename_i hangul
                have plain : isHangul (byteAt str2 0) = false := by grind
                rw [compare_hangul_plain hangul inside' plain]
                rfl
              · rename_i plain
                split
                · rename_i hangul
                  rw [Std.OrientedOrd.eq_swap,
                    compare_hangul_plain hangul inside (by grind)]
                  rfl
                · rename_i plain'
                  rw [compared_plain _ _ inside (by grind), compared_plain _ _ inside' (by grind)]
                  exact sign_step _ _ _ _ _ _ (by rw [plainRank_sub]) (ih rest (by omega) _ _)

theorem cString_cons {byte : UInt8} (inside : byte ≠ 0) (bytes : List UInt8) :
    cString (byte :: bytes) = byte :: cString bytes := by
  rw [cString, List.takeWhile_cons_of_pos (by simpa using inside)]
  rfl

theorem cString_zero (bytes : List UInt8) : cString (0 :: bytes) = [] := rfl

theorem characters_plain {byte : UInt8} (plain : isHangul byte = false) (bytes : List UInt8) :
    characters (byte :: bytes) = plainRank byte :: characters bytes := by
  cases bytes with
  | nil => simp [characters, plain]
  | cons next rest => simp [characters, plain]

theorem compared_head {rest : Nat} {byte : UInt8} {bytes : List UInt8} (inside : byte ≠ 0)
    (fits : bytes.length = rest) :
    ∃ head tail tail', compared (rest + 1) (byte :: bytes) = head :: tail ∧
      characters (cString (byte :: bytes)) = head :: tail' := by
  rw [cString_cons inside]
  cases kind : isHangul byte with
  | false =>
    rw [compared_plain _ (byte :: bytes) inside kind, characters_plain kind]
    exact ⟨_, _, _, rfl, rfl⟩
  | true =>
    cases bytes with
    | nil =>
      obtain rfl : rest = 0 := fits.symm
      refine ⟨hangulRank byte 0, [], [], ?_, ?_⟩
      · exact compared_half ([byte]) kind
      · simp [cString, characters, kind]
    | cons next bytes =>
      obtain ⟨last, rfl⟩ : ∃ last, rest = last + 1 := ⟨bytes.length, fits.symm⟩
      rw [compared_hangul _ (byte :: next :: bytes) kind]
      by_cases ends : next = 0
      · rw [ends, cString_zero]
        exact ⟨_, _, [], rfl, by simp [characters, kind]⟩
      · rw [cString_cons ends]
        exact ⟨_, _, characters (cString bytes), rfl, by simp [characters, kind]⟩

theorem compared_agrees_of_head {rest rest' : Nat} {byte byte' : UInt8}
    {bytes bytes' : List UInt8} (inside : byte ≠ 0) (inside' : byte' ≠ 0)
    (fits : bytes.length = rest) (fits' : bytes'.length = rest')
    (differ : (compared (rest + 1) (byte :: bytes)).head? ≠
      (compared (rest' + 1) (byte' :: bytes')).head?) :
    compare (compared (rest + 1) (byte :: bytes)) (compared (rest' + 1) (byte' :: bytes')) =
        compare (characters (cString (byte :: bytes))) (characters (cString (byte' :: bytes'))) ∧
      cString (byte :: bytes) ≠ cString (byte' :: bytes') := by
  obtain ⟨head, tail, text, seen, isText⟩ := compared_head inside fits
  obtain ⟨head', tail', text', seen', isText'⟩ := compared_head inside' fits'
  rw [seen, seen'] at differ
  have apart : compare head head' ≠ .eq := by
    intro same
    exact differ (by rw [Nat.compare_eq_eq.mp same]; rfl)
  constructor
  · rw [seen, seen', isText, isText', List.compare_cons_cons, List.compare_cons_cons]
    cases order : compare head head' with
    | lt => rfl
    | gt => rfl
    | eq => exact absurd order apart
  · intro same
    rw [same, isText'] at isText
    exact differ (by rw [(List.cons.inj isText).1]; rfl)

theorem compared_agrees_of_sameHead {rest : Nat} {byte byte' : UInt8} {bytes bytes' : List UInt8}
    (later : ∀ size < rest + 1, ∀ str1 str2 : List UInt8, str1.length = size →
      str2.length = size →
        (compare (compared size str1) (compared size str2) =
            compare (characters (cString str1)) (characters (cString str2)) ↔
          (cString str1 = cString str2 → compared size str1 = compared size str2)))
    (inside : byte ≠ 0) (inside' : byte' ≠ 0) (fits : bytes.length = rest)
    (fits' : bytes'.length = rest)
    (same : (compared (rest + 1) (byte :: bytes)).head? =
      (compared (rest + 1) (byte' :: bytes')).head?) :
    compare (compared (rest + 1) (byte :: bytes)) (compared (rest + 1) (byte' :: bytes')) =
        compare (characters (cString (byte :: bytes))) (characters (cString (byte' :: bytes'))) ↔
      (cString (byte :: bytes) = cString (byte' :: bytes') →
        compared (rest + 1) (byte :: bytes) = compared (rest + 1) (byte' :: bytes')) := by
  obtain ⟨head, tail, seen, isRank, isPlain⟩ :=
    compared_inside rest (byte :: bytes) inside
  obtain ⟨head', tail', seen', isRank', isPlain'⟩ :=
    compared_inside rest (byte' :: bytes') inside'
  obtain rfl : head = head' := by
    rw [seen, seen'] at same
    exact Option.some.inj same
  cases kind : isHangul byte with
  | false =>
    have plain := isPlain kind
    cases kind' : isHangul byte' with
    | true =>
      obtain ⟨trail, isHead⟩ := isRank' kind'
      exact absurd (isHead.symm.trans plain) (Nat.ne_of_lt (hangulRank_lt kind' byte))
    | false =>
      obtain rfl : byte = byte' := plainRank_injective (plain.symm.trans (isPlain' kind'))
      rw [compared_plain _ (byte :: bytes) inside kind,
        compared_plain _ (byte :: bytes') inside kind, cString_cons inside,
        cString_cons inside, characters_plain kind, characters_plain kind,
        List.compare_cons_cons, List.compare_cons_cons, Nat.compare_eq_eq.mpr rfl]
      have following := later rest (Nat.lt_succ_self rest) bytes bytes' fits fits'
      simpa using following
  | true =>
    obtain ⟨trail, isHead⟩ := isRank kind
    cases kind' : isHangul byte' with
    | false =>
      exact absurd (isHead.symm.trans (isPlain' kind'))
        (Nat.ne_of_lt (hangulRank_lt kind byte'))
    | true =>
      cases rest with
      | zero =>
        rw [compared_half (byte :: bytes) kind] at seen
        rw [compared_half (byte' :: bytes') kind'] at seen'
        obtain ⟨rfl, -⟩ : byte = byte' ∧ (0 : UInt8) = 0 :=
          hangulRank_injective
            ((List.cons.inj seen).1.trans (List.cons.inj seen').1.symm)
        rw [List.eq_nil_of_length_eq_zero fits, List.eq_nil_of_length_eq_zero fits']
        simp
      | succ last =>
        obtain ⟨next, bytes, rfl⟩ := List.exists_cons_of_length_eq_add_one fits
        obtain ⟨next', bytes', rfl⟩ := List.exists_cons_of_length_eq_add_one fits'
        rw [compared_hangul _ (byte :: next :: bytes) kind] at seen ⊢
        rw [compared_hangul _ (byte' :: next' :: bytes') kind'] at seen' ⊢
        obtain ⟨sameByte, sameNext⟩ :=
          hangulRank_injective
            ((List.cons.inj seen).1.trans (List.cons.inj seen').1.symm)
        obtain rfl : byte = byte' := sameByte
        obtain rfl : next = next' := sameNext
        rw [cString_cons inside, cString_cons inside]
        by_cases ends : next = 0
        · rw [ends, cString_zero, cString_zero]
          simp
        · rw [cString_cons ends, cString_cons ends]
          have following := later last (by omega) bytes bytes' (Nat.succ.inj fits)
            (Nat.succ.inj fits')
          simpa [characters, kind, List.compare_cons_cons] using following

theorem compared_agrees_iff (size : Nat) (str1 str2 : List UInt8) (fits : str1.length = size)
    (fits' : str2.length = size) :
    compare (compared size str1) (compared size str2) =
        compare (characters (cString str1)) (characters (cString str2)) ↔
      (cString str1 = cString str2 → compared size str1 = compared size str2) := by
  induction size using Nat.strongRecOn generalizing str1 str2 with
  | ind size ih =>
    cases size with
    | zero =>
      rw [List.eq_nil_of_length_eq_zero fits, List.eq_nil_of_length_eq_zero fits']
      simp [cString, characters, compared]
    | succ rest =>
      obtain ⟨byte, bytes, rfl⟩ := List.exists_cons_of_length_eq_add_one fits
      obtain ⟨byte', bytes', rfl⟩ := List.exists_cons_of_length_eq_add_one fits'
      have length : bytes.length = rest := Nat.succ.inj fits
      have length' : bytes'.length = rest := Nat.succ.inj fits'
      by_cases ends : byte = 0
      · subst ends
        rw [compared_end _ (0 :: bytes) rfl, cString_zero]
        by_cases ends' : byte' = 0
        · subst ends'
          rw [compared_end _ (0 :: bytes') rfl, cString_zero]
          simp [characters]
        · obtain ⟨head, tail, text, seen, isText⟩ := compared_head ends' length'
          rw [seen, isText, cString_cons ends']
          simp [characters]
      · by_cases ends' : byte' = 0
        · subst ends'
          rw [compared_end _ (0 :: bytes') rfl, cString_zero]
          obtain ⟨head, tail, text, seen, isText⟩ := compared_head ends length
          rw [seen, isText, cString_cons ends]
          simp [characters]
        · by_cases same : (compared (rest + 1) (byte :: bytes)).head? =
              (compared (rest + 1) (byte' :: bytes')).head?
          · exact compared_agrees_of_sameHead ih ends ends' length length' same
          · obtain ⟨agrees, apart⟩ := compared_agrees_of_head ends ends' length length' same
            exact ⟨fun _ equal => absurd equal apart, fun _ => agrees⟩

end Wisebot.Common
