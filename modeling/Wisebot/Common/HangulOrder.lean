import Wisebot.Common.Hangul

namespace Wisebot.Common

open Lib.Comparing

/-! What `hangul_strncmp` reads of two strings, and that its answers are those of an order. -/

structure CStr where
  bytes : List UInt8
  noZero : 0 ∉ bytes

def CStr.memory (str : CStr) : List UInt8 := str.bytes ++ [0]

/-- `hangul_strncmp` on arrays, from an index on; `none` is a read behind the end of one. -/
def hangulStrncmpIn (size : Nat) (str1 str2 : List UInt8) : Option Int :=
  match size with
  | 0 => some 0
  | rest + 1 =>
    str1[0]?.bind fun first =>
      str2[0]?.bind fun second =>
        if first ≠ 0 ∧ second = 0 then some 1
        else if first = 0 ∧ second ≠ 0 then some (-1)
        else if first = 0 ∧ second = 0 then some 0
        else if isHangul first ∧ isHangul second then
          match rest with
          | 0 => some (charValue first - charValue second)
          | last + 1 =>
            if first ≠ second then some (first.toNat - second.toNat)
            else
              str1[1]?.bind fun trail1 =>
                str2[1]?.bind fun trail2 =>
                  if trail1 ≠ trail2 then some (trail1.toNat - trail2.toNat)
                  else hangulStrncmpIn last (str1.drop 2) (str2.drop 2)
        else if isHangul first then some (-1)
        else if isHangul second then some 1
        else
          let diff := charValue first - charValue second
          if diff ≠ 0 then some diff else hangulStrncmpIn rest (str1.drop 1) (str2.drop 1)

def halfEnd : List UInt8 → Bool
  | [] => false
  | [byte] => isHangul byte
  | byte :: next :: rest => if isHangul byte then halfEnd rest else halfEnd (next :: rest)

theorem halfEnd_hangul {byte : UInt8} (hangul : isHangul byte = true) (next : UInt8)
    (rest : List UInt8) : halfEnd (byte :: next :: rest) = halfEnd rest := by
  rw [halfEnd, if_pos hangul]

theorem halfEnd_plain {byte : UInt8} (plain : isHangul byte = false) (rest : List UInt8) :
    halfEnd (byte :: rest) = halfEnd rest := by
  cases rest with
  | nil => exact plain
  | cons next rest => rw [halfEnd, plain]; rfl

theorem byteAt_append_zero (bytes : List UInt8) :
    (bytes ++ [0])[0]? = some (byteAt bytes 0) := by
  cases bytes <;> rfl

theorem byteAt_zero_iff {bytes : List UInt8} (noZero : 0 ∉ bytes) :
    byteAt bytes 0 = 0 ↔ bytes = [] := by
  cases bytes with
  | nil => exact iff_of_true rfl rfl
  | cons byte bytes =>
    refine iff_of_false (fun isZero => ?_) (List.cons_ne_nil _ _)
    rw [byteAt_cons_zero] at isZero
    exact noZero (isZero ▸ List.mem_cons_self)

/-- Both strings are the same one, which ends with half a character, and the size lets the
comparison go on behind its NUL. -/
def ReadsBehind (size : Nat) (str1 str2 : List UInt8) : Prop :=
  str1 = str2 ∧ halfEnd str1 = true ∧ str1.length + 1 < size

instance (size : Nat) (str1 str2 : List UInt8) : Decidable (ReadsBehind size str1 str2) :=
  inferInstanceAs (Decidable (_ ∧ _))

theorem readsBehind_hangul {byte : UInt8} (hangul : isHangul byte = true) {last : Nat}
    {trail : UInt8} {str1 str2 : List UInt8} :
    ReadsBehind (last + 2) (byte :: trail :: str1) (byte :: trail :: str2) ↔
      ReadsBehind last str1 str2 := by
  rw [ReadsBehind, ReadsBehind, halfEnd_hangul hangul, List.length_cons, List.length_cons]
  simp

theorem readsBehind_plain {byte : UInt8} (plain : isHangul byte = false) {rest : Nat}
    {str1 str2 : List UInt8} :
    ReadsBehind (rest + 1) (byte :: str1) (byte :: str2) ↔ ReadsBehind rest str1 str2 := by
  rw [ReadsBehind, ReadsBehind, halfEnd_plain plain, List.length_cons]
  simp

theorem hangulStrncmpIn_hangul {first second : UInt8} {last : Nat} {str1 str2 : List UInt8}
    (hangul : isHangul first = true) (noZero : 0 ∉ str1) (noZero' : 0 ∉ str2)
    (following : ∀ more1 more2 : List UInt8, 0 ∉ more1 → 0 ∉ more2 →
      hangulStrncmpIn last (more1 ++ [0]) (more2 ++ [0]) =
        if ReadsBehind last more1 more2 then none else some (hangulStrncmp last more1 more2)) :
    (if first ≠ second then some ((first.toNat : Int) - second.toNat)
      else if byteAt str1 0 ≠ byteAt str2 0 then
        some (((byteAt str1 0).toNat : Int) - (byteAt str2 0).toNat)
      else hangulStrncmpIn last ((str1 ++ [0]).drop 1) ((str2 ++ [0]).drop 1)) =
    if ReadsBehind (last + 2) (first :: str1) (second :: str2) then none
    else some (if strncmpTwo (first :: str1) (second :: str2) ≠ 0 then
        strncmpTwo (first :: str1) (second :: str2)
      else hangulStrncmp last (str1.drop 1) (str2.drop 1)) := by
  by_cases same : first = second
  · subst same
    have two : strncmpTwo (first :: str1) (first :: str2) =
        (byteAt str1 0).toNat - (byteAt str2 0).toNat := if_neg (not_not.mpr rfl)
    rw [if_neg (not_not.mpr rfl), two]
    by_cases sameTrail : byteAt str1 0 = byteAt str2 0
    · rw [if_neg (not_not.mpr sameTrail), sameTrail, Int.sub_self, if_neg (not_not.mpr rfl)]
      cases str1 with
      | nil =>
        obtain rfl : str2 = [] := (byteAt_zero_iff noZero').mp sameTrail.symm
        have behind : ReadsBehind (last + 2) [first] [first] ↔ 0 < last := by
          simp [ReadsBehind, halfEnd, hangul]
        cases last with
        | zero =>
          rw [if_neg fun isBehind => Nat.lt_irrefl 0 (behind.mp isBehind)]
          rfl
        | succ last =>
          rw [if_pos (behind.mpr (Nat.succ_pos last)), hangulStrncmpIn.eq_def]
          rfl
      | cons trail more1 =>
        cases str2 with
        | nil =>
          have isZero : trail = 0 := sameTrail
          exact absurd (isZero ▸ List.mem_cons_self) noZero
        | cons trail' more2 =>
          obtain rfl : trail = trail' := sameTrail
          have isNext := following more1 more2
            (fun within => noZero (List.mem_cons_of_mem _ within))
            (fun within => noZero' (List.mem_cons_of_mem _ within))
          simp only [readsBehind_hangul hangul]
          exact isNext
    · have notBehind : ¬ ReadsBehind (last + 2) (first :: str1) (first :: str2) := by
        intro behind
        exact sameTrail (congrArg (byteAt · 0) (List.cons.inj behind.1).2)
      have notZero : ((byteAt str1 0).toNat : Int) - (byteAt str2 0).toNat ≠ 0 := by
        intro isZero
        exact sameTrail (UInt8.toNat_inj.mp (by omega))
      rw [if_pos sameTrail, if_neg notBehind, if_pos notZero]
  · have notBehind : ¬ ReadsBehind (last + 2) (first :: str1) (second :: str2) :=
      fun behind => same (List.cons.inj behind.1).1
    have two : strncmpTwo (first :: str1) (second :: str2) = first.toNat - second.toNat :=
      if_pos same
    have notZero : (first.toNat : Int) - second.toNat ≠ 0 := by
      intro isZero
      exact same (UInt8.toNat_inj.mp (by omega))
    rw [if_pos same, if_neg notBehind, two, if_pos notZero]

theorem hangulStrncmpIn_eq (size : Nat) {str1 str2 : List UInt8} (noZero : 0 ∉ str1)
    (noZero' : 0 ∉ str2) :
    hangulStrncmpIn size (str1 ++ [0]) (str2 ++ [0]) =
      if ReadsBehind size str1 str2 then none else some (hangulStrncmp size str1 str2) := by
  induction size using Nat.strongRecOn generalizing str1 str2 with
  | ind size ih =>
    cases size with
    | zero =>
      rw [if_neg fun behind => Nat.not_lt_zero _ behind.2.2]
      rfl
    | succ rest =>
      rw [hangulStrncmpIn.eq_def, hangulStrncmp.eq_def]
      simp only [byteAt_append_zero, Option.bind_some]
      cases str1 with
      | nil =>
        have notBehind : ∀ other, ¬ ReadsBehind (rest + 1) [] other :=
          fun _ behind => Bool.false_ne_true behind.2.1
        cases str2 with
        | nil => simp [byteAt, notBehind]
        | cons second str2 =>
          have inside : second ≠ 0 := fun isZero => noZero' (isZero ▸ List.mem_cons_self)
          simp [byteAt, inside, notBehind]
      | cons first str1 =>
        have inside : first ≠ 0 := fun isZero => noZero (isZero ▸ List.mem_cons_self)
        have noZeros : 0 ∉ str1 := fun within => noZero (List.mem_cons_of_mem _ within)
        cases str2 with
        | nil =>
          have notBehind : ¬ ReadsBehind (rest + 1) (first :: str1) [] :=
            fun behind => List.cons_ne_nil _ _ behind.1
          simp [byteAt, inside, notBehind]
        | cons second str2 =>
          have inside' : second ≠ 0 := fun isZero => noZero' (isZero ▸ List.mem_cons_self)
          have noZeros' : 0 ∉ str2 := fun within => noZero' (List.mem_cons_of_mem _ within)
          have notBehind : first ≠ second →
              ¬ ReadsBehind (rest + 1) (first :: str1) (second :: str2) :=
            fun differ behind => differ (List.cons.inj behind.1).1
          simp only [byteAt_cons_zero, inside, inside', ne_eq, not_false_eq_true, and_false,
            false_and, if_false]
          rcases Bool.eq_false_or_eq_true (isHangul first) with hangul | hangul <;>
            rcases Bool.eq_false_or_eq_true (isHangul second) with hangul' | hangul'
          · simp only [hangul, hangul', and_self, if_true]
            cases rest with
            | zero =>
              have tooShort : ¬ ReadsBehind 1 (first :: str1) (second :: str2) :=
                fun behind => absurd behind.2.2 (by rw [List.length_cons]; omega)
              simp only [Nat.zero_add, if_neg tooShort]
            | succ last =>
              have two := @hangulStrncmpIn_hangul first second last str1 str2 hangul noZeros
                noZeros' fun more1 more2 noMore noMore' =>
                  ih last (by omega) noMore noMore'
              simp only [List.cons_append, List.getElem?_cons_succ, byteAt_append_zero,
                Option.bind_some, List.drop_succ_cons]
              exact two
          · have differ : first ≠ second := by
              rintro rfl
              exact Bool.false_ne_true (hangul'.symm.trans hangul)
            simp [notBehind differ, hangul, hangul']
          · have differ : first ≠ second := by
              rintro rfl
              exact Bool.false_ne_true (hangul.symm.trans hangul')
            simp [notBehind differ, hangul, hangul']
          · by_cases same : first = second
            · subst same
              simp only [hangul, Bool.false_eq_true, and_self, if_false, Int.sub_self,
                not_true_eq_false, readsBehind_plain hangul]
              exact ih rest (Nat.lt_succ_self rest) noZeros noZeros'
            · have notZero : charValue first - charValue second ≠ 0 := by
                intro isZero
                exact same (charValue_injective (by omega))
              simp [notBehind same, notZero, hangul, hangul']

theorem compared_eq_hangul {first second : UInt8} {rest : Nat} {str1 str2 : List UInt8}
    (inside : first ≠ 0) (inside' : second ≠ 0) (hangul : isHangul first = true)
    (same : compared (rest + 1) (first :: str1) = compared (rest + 1) (second :: str2)) :
    first = second := by
  obtain ⟨head, tail, seen, isRank, -⟩ := compared_inside rest (first :: str1) inside
  obtain ⟨head', tail', seen', isRank', isPlain'⟩ := compared_inside rest (second :: str2) inside'
  rw [seen, seen'] at same
  obtain ⟨rfl, -⟩ := List.cons.inj same
  obtain ⟨trail, isHead⟩ := isRank hangul
  rcases Bool.eq_false_or_eq_true (isHangul second) with hangul' | plain'
  · obtain ⟨trail', isHead'⟩ := isRank' hangul'
    exact (hangulRank_injective (isHead.symm.trans isHead')).1
  · exact absurd (isHead.symm.trans (isPlain' plain')) (Nat.ne_of_lt (hangulRank_lt hangul _))

theorem compared_trail {lead : UInt8} {last : Nat} {str1 str2 : List UInt8}
    (noZero : 0 ∉ str1) (noZero' : 0 ∉ str2)
    (following : ∀ more1 more2 : List UInt8, 0 ∉ more1 → 0 ∉ more2 →
      (compared last more1 = compared last more2 ↔ more1.take last = more2.take last)) :
    hangulRank lead (byteAt str1 0) :: compared last (str1.drop 1) =
        hangulRank lead (byteAt str2 0) :: compared last (str2.drop 1) ↔
      str1.take (last + 1) = str2.take (last + 1) := by
  cases str1 with
  | nil =>
    refine ⟨fun same => ?_, fun same => ?_⟩
    · have isEnd := (hangulRank_injective (List.cons.inj same).1).2
      rw [(byteAt_zero_iff noZero').mp isEnd.symm]
    · cases str2 with
      | nil => rfl
      | cons second str2 => cases same
  | cons first str1 =>
    cases str2 with
    | nil =>
      refine ⟨fun same => ?_, fun same => by cases same⟩
      have isEnd : first = 0 := (hangulRank_injective (List.cons.inj same).1).2
      exact absurd (isEnd ▸ List.mem_cons_self) noZero
    | cons second str2 =>
      have isNext := following str1 str2 (fun within => noZero (List.mem_cons_of_mem _ within))
        (fun within => noZero' (List.mem_cons_of_mem _ within))
      rw [List.take_succ_cons, List.take_succ_cons]
      constructor
      · intro same
        obtain ⟨sameHead, sameTail⟩ := List.cons.inj same
        have sameByte : first = second := (hangulRank_injective sameHead).2
        rw [sameByte, isNext.mp sameTail]
      · intro same
        obtain ⟨rfl, sameTail⟩ := List.cons.inj same
        exact congrArg (hangulRank lead first :: ·) (isNext.mpr sameTail)

/-- What is looked at is the same when the strings agree up to their NUL or up to the size. -/
theorem compared_eq_iff (size : Nat) {str1 str2 : List UInt8} (noZero : 0 ∉ str1)
    (noZero' : 0 ∉ str2) :
    compared size str1 = compared size str2 ↔ str1.take size = str2.take size := by
  induction size using Nat.strongRecOn generalizing str1 str2 with
  | ind size ih =>
    cases size with
    | zero => exact iff_of_true rfl rfl
    | succ rest =>
      cases str1 with
      | nil =>
        cases str2 with
        | nil => exact iff_of_true rfl rfl
        | cons second str2 =>
          have inside' : second ≠ 0 := fun isZero => noZero' (isZero ▸ List.mem_cons_self)
          obtain ⟨head, tail, seen, -, -⟩ := compared_inside rest (second :: str2) inside'
          rw [seen, compared_end _ _ rfl]
          exact iff_of_false (List.cons_ne_nil _ _).symm (List.cons_ne_nil _ _).symm
      | cons first str1 =>
        have inside : first ≠ 0 := fun isZero => noZero (isZero ▸ List.mem_cons_self)
        have noZeros : 0 ∉ str1 := fun within => noZero (List.mem_cons_of_mem _ within)
        cases str2 with
        | nil =>
          obtain ⟨head, tail, seen, -, -⟩ := compared_inside rest (first :: str1) inside
          rw [seen, compared_end _ [] rfl]
          exact iff_of_false (List.cons_ne_nil _ _) (List.cons_ne_nil _ _)
        | cons second str2 =>
          have inside' : second ≠ 0 := fun isZero => noZero' (isZero ▸ List.mem_cons_self)
          have noZeros' : 0 ∉ str2 := fun within => noZero' (List.mem_cons_of_mem _ within)
          rw [List.take_succ_cons, List.take_succ_cons]
          by_cases same : first = second
          · subst same
            rcases Bool.eq_false_or_eq_true (isHangul first) with hangul | plain
            · cases rest with
              | zero =>
                rw [compared_half (first :: str1) hangul, compared_half (first :: str2) hangul]
                exact iff_of_true rfl rfl
              | succ last =>
                rw [compared_hangul _ (first :: str1) hangul,
                  compared_hangul _ (first :: str2) hangul, List.cons_inj_right]
                exact compared_trail noZeros noZeros' fun more1 more2 noMore noMore' =>
                  ih last (by omega) noMore noMore'
            · rw [compared_plain _ (first :: str1) inside plain,
                compared_plain _ (first :: str2) inside plain, byteAt_cons_zero,
                byteAt_cons_zero, List.cons_inj_right, List.cons_inj_right]
              exact ih rest (Nat.lt_succ_self rest) noZeros noZeros'
          · refine iff_of_false (fun never => ?_) fun never => same (List.cons.inj never).1
            rcases Bool.eq_false_or_eq_true (isHangul first) with hangul | plain
            · exact same (compared_eq_hangul inside inside' hangul never)
            · rcases Bool.eq_false_or_eq_true (isHangul second) with hangul' | plain'
              · exact same (compared_eq_hangul inside' inside hangul' never.symm).symm
              · rw [compared_plain _ (first :: str1) inside plain,
                  compared_plain _ (second :: str2) inside' plain'] at never
                exact same (plainRank_injective (List.cons.inj never).1)

theorem readsBehind_comm {size : Nat} {str1 str2 : List UInt8} :
    ReadsBehind size str1 str2 ↔ ReadsBehind size str2 str1 := by
  constructor
  · rintro ⟨rfl, behind⟩
    exact ⟨rfl, behind⟩
  · rintro ⟨rfl, behind⟩
    exact ⟨rfl, behind⟩

theorem hangulStrncmp_nonpos_iff (size : Nat) (str1 str2 : List UInt8) :
    hangulStrncmp size str1 str2 ≤ 0 ↔
      (compare (compared size str1) (compared size str2)).isLE = true := by
  rw [← sign_nonpos_iff, ← hangulStrncmp_sign, Int.sign_nonpos_iff]

theorem hangulStrncmp_eq_zero_iff (size : Nat) (str1 str2 : List UInt8) :
    hangulStrncmp size str1 str2 = 0 ↔
      compare (compared size str1) (compared size str2) = .eq := by
  rw [← Int.sign_eq_zero_iff_zero, hangulStrncmp_sign]
  cases compare (compared size str1) (compared size str2) <;> decide

/-- The strings are read within their ends and the answers are those of an order, exactly
when no two of them are the same one with half a character at its end. -/
theorem hangulStrncmp_orders_iff (size : Nat) (a b c : CStr) :
    (∃ ab ba bc ac, hangulStrncmpIn size a.memory b.memory = some ab ∧
      hangulStrncmpIn size b.memory a.memory = some ba ∧
      hangulStrncmpIn size b.memory c.memory = some bc ∧
      hangulStrncmpIn size a.memory c.memory = some ac ∧
      (ab = 0 ↔ a.bytes.take size = b.bytes.take size) ∧ ba.sign = -ab.sign ∧
      (ab ≤ 0 → bc ≤ 0 → ac ≤ 0)) ↔
      ¬ ReadsBehind size a.bytes b.bytes ∧ ¬ ReadsBehind size b.bytes c.bytes ∧
        ¬ ReadsBehind size a.bytes c.bytes := by
  simp only [CStr.memory, hangulStrncmpIn_eq size a.noZero b.noZero,
    hangulStrncmpIn_eq size b.noZero a.noZero, hangulStrncmpIn_eq size b.noZero c.noZero,
    hangulStrncmpIn_eq size a.noZero c.noZero]
  constructor
  · rintro ⟨ab, ba, bc, ac, isAB, -, isBC, isAC, -⟩
    refine ⟨fun behind => ?_, fun behind => ?_, fun behind => ?_⟩
    · rw [if_pos behind] at isAB
      cases isAB
    · rw [if_pos behind] at isBC
      cases isBC
    · rw [if_pos behind] at isAC
      cases isAC
  · rintro ⟨noneAB, noneBC, noneAC⟩
    refine ⟨_, _, _, _, if_neg noneAB, if_neg (noneAB ∘ readsBehind_comm.mp), if_neg noneBC,
      if_neg noneAC, ?_, ?_, ?_⟩
    · rw [hangulStrncmp_eq_zero_iff, Std.compare_eq_iff_eq]
      exact compared_eq_iff size a.noZero b.noZero
    · rw [hangulStrncmp_sign, hangulStrncmp_sign, Std.OrientedOrd.eq_swap, sign_swap]
    · rw [hangulStrncmp_nonpos_iff, hangulStrncmp_nonpos_iff, hangulStrncmp_nonpos_iff]
      exact Std.TransCmp.isLE_trans

/-- Two strings of the first byte of a Hangul character. -/
theorem hangulStrncmp_readsBehind :
    ¬ ∃ answer, hangulStrncmpIn 3 (CStr.memory ⟨[0xb0], by decide⟩)
      (CStr.memory ⟨[0xb0], by decide⟩) = some answer := by
  rintro ⟨answer, isAnswer⟩
  cases isAnswer

end Wisebot.Common
