import Wisebot.Xml.Handlers

namespace Wisebot.Xml

open Wisebot.Lib

/-! What a conversion of character data puts on the stack. A call of `iconv` that stops
before a rejected byte has its output dropped. -/

variable {conversion : Conversion} {items : List (Option Bytes)} {stack : Stack}

/-- Every rejected byte comes when nothing that was converted waits in the output, of
which `produced` bytes are in use. -/
def Kept (conversion : Conversion) (produced : Nat) : List (Option Bytes) → Prop
  | [] => True
  | none :: items =>
    (produced = 0 ∨ conversion.fullFirst = true ∧ produced = convertingUnitByte) ∧
      Kept conversion 0 items
  | some output :: items =>
    if (conversion.fullFirst = true ∧ produced = convertingUnitByte) ∨
        convertingUnitByte < produced + output.length then
      Kept conversion output.length items
    else Kept conversion (produced + output.length) items

theorem kept_of_conversions_nil (nothing : Conversion.conversions items = []) :
    Kept conversion 0 items := by
  induction items with
  | nil => trivial
  | cons item items induction =>
    cases item with
    | none => exact ⟨.inl rfl, induction nothing⟩
    | some output =>
      rw [Conversion.conversions_some, List.append_eq_nil_iff] at nothing
      obtain ⟨rfl, nothing⟩ := nothing
      rw [Kept, if_neg (by rw [convertingUnitByte]; simp)]
      exact induction nothing

theorem kept_of_call {room produced : Nat} {errno : Option Errno} {output : Bytes}
    {behind : List (Option Bytes)}
    (call : conversion.Call room items errno output behind)
    (unit : produced + room = convertingUnitByte)
    (small : ∀ output, some output ∈ items → output.length ≤ convertingUnitByte) :
    Kept conversion produced items ↔
      (errno = none ∨ errno = some .E2BIG ∨ produced + output.length = 0) ∧
        Kept conversion 0 behind := by
  induction call generalizing produced with
  | ended => simp [Kept]
  | @full item items isFull =>
    have atEnd : produced = convertingUnitByte := unit
    cases item with
    | none => simp [Kept, atEnd, isFull]
    | some output =>
      have fits := small output List.mem_cons_self
      have fresh : ¬ ((conversion.fullFirst = true ∧ 0 = convertingUnitByte) ∨
          convertingUnitByte < 0 + output.length) := by
        rw [convertingUnitByte] at fits ⊢
        omega
      rw [Kept, if_pos (.inl ⟨isFull, atEnd⟩), Kept, if_neg fresh, Nat.zero_add]
      simp
  | rejected looks isRejection =>
    have notFull : ¬ (conversion.fullFirst = true ∧ produced = convertingUnitByte) :=
      fun both => looks ⟨both.1, by omega⟩
    simp [Kept, notFull, isRejection]
  | @large room output items isLarge =>
    have fits := small output List.mem_cons_self
    have fresh : ¬ ((conversion.fullFirst = true ∧ 0 = convertingUnitByte) ∨
        convertingUnitByte < 0 + output.length) := by
      rw [convertingUnitByte] at fits ⊢
      omega
    rw [Kept, if_pos (.inr (by omega)), Kept, if_neg fresh, Nat.zero_add]
    simp
  | @converted room output outputs items behind errno looks fits rest induction =>
    have inRoom : ¬ ((conversion.fullFirst = true ∧ produced = convertingUnitByte) ∨
        convertingUnitByte < produced + output.length) := by
      rintro (both | isLarge)
      · exact looks ⟨both.1, by omega⟩
      · omega
    rw [Kept, if_neg inRoom, induction (by omega) fun output member =>
      small output (List.mem_cons_of_mem _ member), List.length_append, Nat.add_assoc]

theorem Stack.WellFormed.hasRoom_zero (wellFormed : stack.WellFormed) : stack.HasRoom 0 :=
  .inr wellFormed.within

theorem Call.appended {errno : Option Errno} {output : Bytes} {behind : List (Option Bytes)}
    (call : conversion.Call convertingUnitByte items errno output behind)
    (small : ∀ output, some output ∈ items → output.length ≤ convertingUnitByte)
    (goesOn : errno = none ∨ errno = some .E2BIG) (room : Prop) (taken : Bytes)
    (rest : taken = Conversion.conversions behind ↔ Kept conversion 0 behind ∧ room) :
    output ++ taken = Conversion.conversions items ↔ Kept conversion 0 items ∧ room := by
  rw [call.conversions_eq, List.append_cancel_left_eq, rest,
    kept_of_call call (Nat.zero_add _) small]
  simp only [← or_assoc, goesOn, true_or, true_and]

theorem dropped_iff {errno : Errno} (isRejection : errno ≠ .E2BIG) {output taken : Bytes}
    (bound : taken.length ≤ (Conversion.conversions items).length)
    (rest : taken = Conversion.conversions items ↔
      Kept conversion 0 items ∧ stack.HasRoom (Conversion.conversions items).length) :
    taken = output ++ Conversion.conversions items ↔
      ((some errno = none ∨ some errno = some .E2BIG ∨ 0 + output.length = 0) ∧
        Kept conversion 0 (none :: items)) ∧
      stack.HasRoom (output ++ Conversion.conversions items).length := by
  cases output with
  | nil => simpa [Kept] using rest
  | cons byte output =>
    have longer : taken ≠ byte :: (output ++ Conversion.conversions items) := by
      rintro rfl
      rw [List.length_cons, List.length_append] at bound
      omega
    simp [longer, isRejection]

theorem convertLoop_texts (within : conversion.Within convertingUnitByte) {fuel : Nat}
    {input : Bytes} (splits : conversion.Splits input items) (enough : items.length ≤ fuel)
    (wellFormed : stack.WellFormed) {top : Bytes} {below : List Bytes}
    (texts : stack.texts = top :: below) :
    ∃ after taken, convertLoop conversion fuel stack input = some after ∧
      after.texts = (top ++ taken) :: below ∧
      taken.length ≤ (Conversion.conversions items).length ∧
      (taken = Conversion.conversions items ↔
        Kept conversion 0 items ∧ stack.HasRoom (Conversion.conversions items).length) := by
  induction fuel generalizing input items stack top with
  | zero =>
    obtain rfl := List.eq_nil_of_length_eq_zero (Nat.le_zero.mp enough)
    cases splits with
    | nil =>
      refine ⟨stack, [], rfl, by rw [texts, List.append_nil], Nat.le_refl _, ?_⟩
      simp [Kept, wellFormed.hasRoom_zero]
  | succ fuel induction =>
    rcases input with _ | ⟨byte, input⟩
    · cases splits with
      | nil =>
        refine ⟨stack, [], rfl, by rw [texts, List.append_nil], Nat.le_refl _, ?_⟩
        simp [Kept, wellFormed.hasRoom_zero]
    · have small := splits.within within
      obtain ⟨behind, splitsRest, call⟩ := splits.iconv convertingUnitByte
      have total := call.conversions_eq
      rw [convertLoop]
      generalize conversion.iconv (byte :: input) convertingUnitByte = converted at *
      by_cases rejected : converted.errno = some .EILSEQ ∨ converted.errno = some .EINVAL
      · rw [if_pos rejected]
        obtain ⟨errno, isErrno, isRejection⟩ :
            ∃ errno, converted.errno = some errno ∧ errno ≠ .E2BIG := by
          rcases rejected with isErrno | isErrno
          · exact ⟨_, isErrno, by decide⟩
          · exact ⟨_, isErrno, by decide⟩
        rw [isErrno] at call
        obtain ⟨others, rfl⟩ := call.behind_of_rejected isRejection
        have shorter := call.length_le
        generalize converted.rest = rest at splitsRest ⊢
        cases splitsRest with
        | rejected _ splitsOthers =>
          obtain ⟨after, taken, loop, isTexts, bound, isTaken⟩ := induction splitsOthers
            (Nat.le_of_succ_le_succ (shorter.trans enough)) wellFormed texts
          refine ⟨after, taken, loop, isTexts, ?_, ?_⟩
          · rw [total, List.length_append, Conversion.conversions_none]
            omega
          · rw [total, Conversion.conversions_none, kept_of_call call (Nat.zero_add _) small]
            exact dropped_iff isRejection bound isTaken
      · rw [if_neg rejected]
        have goesOn : converted.errno = none ∨ converted.errno = some .E2BIG := by
          rcases isErrno : converted.errno with _ | (_ | _ | _)
          · exact .inl rfl
          · exact absurd (.inl isErrno) rejected
          · exact absurd (.inr isErrno) rejected
          · exact .inr rfl
        have shorter : behind.length ≤ fuel := by
          rcases goesOn with isErrno | isErrno
          · rw [isErrno] at call
            rw [call.behind_of_ended]
            exact Nat.zero_le _
          · rw [isErrno] at call
            have progress := call.progress (by decide) small
            omega
        by_cases room : stack.HasRoom converted.output.length
        · obtain ⟨next, appended, wellFormedNext, textsNext, roomNext⟩ :=
            stAppend_of_room wellFormed room texts
          obtain ⟨after, taken, loop, isTexts, bound, isTaken⟩ :=
            induction splitsRest shorter wellFormedNext textsNext
          refine ⟨after, converted.output ++ taken, by rw [appended]; exact loop, ?_, ?_, ?_⟩
          · rw [isTexts, List.append_assoc]
          · rw [total, List.length_append, List.length_append]
            omega
          · rw [roomNext, ← List.length_append, ← total] at isTaken
            exact Call.appended call small goesOn _ taken isTaken
        · refine ⟨stack, [], by rw [stAppend_full room], ?_, Nat.zero_le _, ?_⟩
          · rw [texts, List.append_nil]
          · have longer : ¬ stack.HasRoom (Conversion.conversions items).length := by
              rw [total, List.length_append]
              exact fun fits => room (fits.mono (Nat.le_add_right _ _))
            have something : Conversion.conversions items ≠ [] := fun nothing =>
              longer (by rw [nothing]; exact wellFormed.hasRoom_zero)
            simp [longer, something.symm]

/-- The handler returns. All that can be converted is on the stack exactly when every
rejected byte comes with an empty output buffer, no call before has failed for good and
the stack has room. -/
theorem characterHandler_converts_iff (within : conversion.Within convertingUnitByte)
    {data : LocalData} (converting : data.iconv = some conversion)
    (wellFormed : data.st.WellFormed) {top : Bytes} {below : List Bytes}
    (texts : data.st.texts = top :: below) (s : Bytes) :
    ∃ after, characterHandler data s = some after ∧
      (after.st.texts = (top ++ Conversion.conversions (conversion.characters s)) :: below ↔
        (data.panicerror = false ∨ Conversion.conversions (conversion.characters s) = []) ∧
        Kept conversion 0 (conversion.characters s) ∧
        data.st.HasRoom (Conversion.conversions (conversion.characters s)).length) := by
  have splits : conversion.Splits s (conversion.characters s) := Conversion.splits_characters
  rw [characterHandler]
  by_cases panic : data.panicerror = true
  · rw [if_pos panic]
    refine ⟨data, rfl, ?_⟩
    rw [texts, List.cons_eq_cons, List.self_eq_append_right]
    constructor
    · rintro ⟨nothing, -⟩
      refine ⟨.inr nothing, kept_of_conversions_nil nothing, ?_⟩
      rw [nothing]
      exact wellFormed.hasRoom_zero
    · rintro ⟨isNothing, -⟩
      exact ⟨isNothing.resolve_left (by simp [panic]), rfl⟩
  · obtain ⟨after, taken, loop, isTexts, -, isTaken⟩ :=
      convertLoop_texts within splits splits.length_le wellFormed texts
    refine ⟨{ data with st := after }, ?_, ?_⟩
    · rw [if_neg panic, converting]
      simp only [loop, Option.map_some]
    · change after.texts = _ ↔ _
      rw [isTexts, List.cons_eq_cons, List.append_cancel_left_eq, isTaken]
      simp [panic]

def asciiOnly : Conversion where
  next
    | [] => none
    | byte :: _ => if byte < 128 then some (1, [byte]) else none
  incomplete _ := false
  fullFirst := false
  takes := by
    rintro (_ | ⟨byte, input⟩) output used isNext
    · cases isNext
    · dsimp only at isNext
      split at isNext
      · cases isNext
        exact Nat.one_pos
      · cases isNext

def openElement (conversion : Conversion) : LocalData where
  p := ⟨Dh.dhCreate (initNode []), []⟩
  st := stPush (stCreate2 (fun _ => 0) 4096)
  depth := 1
  panicerror := false
  iconv := some conversion
  nodes := fun _ => initNode []
  path := fun _ => []

theorem asciiOnly_within : asciiOnly.Within convertingUnitByte := by
  rintro (_ | ⟨byte, input⟩) output used isNext
  · cases isNext
  · simp only [asciiOnly, Option.ite_none_right_eq_some] at isNext
    cases isNext.2
    change 1 ≤ convertingUnitByte
    decide

theorem openElement_wellFormed (conversion : Conversion) :
    (openElement conversion).st.WellFormed :=
  stPush_wellFormed (stCreate2_wellFormed _ _)

theorem characterHandler_converts_two_calls :
    ∃ after, characterHandler (openElement asciiOnly) [200, 65, 66] = some after ∧
      (after.st.texts = [[65, 66]] ↔
        ((openElement asciiOnly).panicerror = false ∨
          Conversion.conversions (asciiOnly.characters [200, 65, 66]) = []) ∧
        Kept asciiOnly 0 (asciiOnly.characters [200, 65, 66]) ∧
        (openElement asciiOnly).st.HasRoom 2) :=
  characterHandler_converts_iff asciiOnly_within rfl (openElement_wellFormed asciiOnly) rfl
    [200, 65, 66]

/-- The letter in front of a rejected byte is lost. -/
theorem characterHandler_loses_letter :
    Conversion.conversions (asciiOnly.characters [65, 200, 66]) = [65, 66] ∧
      (characterHandler (openElement asciiOnly) [65, 200, 66]).map (fun after => after.st.texts) =
        some [[66]] := by
  constructor <;> decide +kernel

end Wisebot.Xml
