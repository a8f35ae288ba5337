import Mathlib.Data.List.TakeWhile
import Wisebot.Tokenizer.FieldPrefixes

namespace Wisebot.Tokenizer

/-! Where a call of `tk_getNextToken` stays inside its buffers and inside the query,
and which characters end a token. Numbers are copied to a buffer of 256 bytes,
whatever their length. The length of a word with the operator `STAR` behind it is
counted up to a stop character, which the operator need not be. -/

variable (config : Config) (tkObj : TokenObj)

def ParameterFits (theString : Text) : Prop :=
  isNumParamFollowing theString = true → (parameterDigits theString).2.length < numSize

/-- Behind each `%` there are fewer digits than the buffer has bytes. -/
def EscapesFit : Text → Prop
  | [] => True
  | char :: rest =>
    (isEscapeChar char = true → (rest.takeWhile isDigit).length < numSize) ∧ EscapesFit rest

def OperatorParameterFits (operators : List Text) : Prop :=
  0 < firstOperator config tkObj tkObj.src true operators →
    ParameterFits (tkObj.src.drop (firstOperator config tkObj tkObj.src true operators))

/-- The word of a truncation ends where its operator begins, as far as its length
goes, and can be decoded. -/
def TruncationFits : Prop :=
  (0 < firstPrefix tkObj.src config.opSTAR →
    EscapesFit ((tkObj.src.drop (firstPrefix tkObj.src config.opSTAR)).take
      (getNextTokenLength config tkObj (firstPrefix tkObj.src config.opSTAR)))) ∧
  (firstPrefix tkObj.src config.opSTAR = 0 →
    ∀ opLen, starBehind config tkObj tkObj.src = some opLen →
      getNextTokenLength config tkObj 0 + opLen ≤ tkObj.src.length ∧
        EscapesFit (tkObj.src.take (getNextTokenLength config tkObj 0)))

def NoneOf (operators : List (Config → TokenObj → Match)) : Prop :=
  ∀ isOp ∈ operators, isOp config tkObj = .no

def OperatorFits : Prop :=
  (NoneOf config tkObj [isOpAND, isOpOR, isOpNOT] →
    OperatorParameterFits config tkObj config.opPARA) ∧
  (NoneOf config tkObj [isOpAND, isOpOR, isOpNOT, isOpPARA] →
    OperatorParameterFits config tkObj config.opWITHIN) ∧
  (NoneOf config tkObj [isOpAND, isOpOR, isOpNOT, isOpPARA, isOpWITHIN, isOpFUZZY, isOpFIELD,
      isOpVirtualFIELD] →
    TruncationFits config tkObj)

def nextWord : Text := tkObj.src.take (getNextTokenLength config tkObj 0)

/-- What is next fits into the buffers and ends inside the query. -/
def NextFits : Prop :=
  (tkObj.isPositionWithinPhrase = false → OperatorFits config tkObj) ∧
    (isOperator config tkObj = .no → EscapesFit (nextWord config tkObj))

structure Ready : Prop where
  short : tkObj.inputStr.length < maxInputstrLen
  noNull : 0 ∉ tkObj.inputStr
  within : tkObj.idx ≤ tkObj.inputStr.length

/-- A call writes to no other memory than its buffers, and goes on in the query until
its end. -/
def CallSafe (node : QueryNode) : Prop :=
  ∃ token after, tkGetNextToken config tkObj node maxOriginalWordLen = some (token, after) ∧
    (token = .endOfString ∨ tkObj.idx < after.idx) ∧ after.idx ≤ after.inputStr.length

section Escapes

theorem escapesFit_of_digits {digits rest : Text} (allDigits : ∀ char ∈ digits, isDigit char = true) :
    EscapesFit (digits ++ rest) ↔ EscapesFit rest := by
  induction digits with
  | nil => rfl
  | cons char digits ih =>
    have digit := allDigits char List.mem_cons_self
    have noEscape : isEscapeChar char = false := by
      simp only [isDigit, decide_eq_true_eq] at digit
      simp only [isEscapeChar, decide_eq_false_iff_not]
      rintro rfl
      exact absurd digit.1 (by decide)
    rw [List.cons_append, EscapesFit, noEscape]
    simp [ih fun other member => allDigits other (List.mem_cons_of_mem char member)]

theorem drop_length_takeWhile (p : UInt8 → Bool) (text : Text) :
    text.drop (text.takeWhile p).length = text.dropWhile p :=
  calc text.drop (text.takeWhile p).length
      = (text.takeWhile p ++ text.dropWhile p).drop (text.takeWhile p).length := by
        rw [List.takeWhile_append_dropWhile]
    _ = text.dropWhile p := List.drop_left

theorem getParameter_escape (rest : Text) :
    getParameter (37 :: rest) =
      if (rest.takeWhile isDigit).length = 0 then some (0, 0)
      else if (rest.takeWhile isDigit).length < numSize then
        some (1 + (rest.takeWhile isDigit).length, readNumber (rest.takeWhile isDigit))
      else none := by
  cases rest with
  | nil => rfl
  | cons char rest =>
    have following : isNumParamFollowing (37 :: char :: rest) = isDigit char := by
      simp [isNumParamFollowing, charAt, isDigit]
    have digits : parameterDigits (37 :: char :: rest) = (1, (char :: rest).takeWhile isDigit) := by
      simp [parameterDigits, charAt, isDigit]
    rw [getParameter, following, digits]
    cases digit : isDigit char with
    | false => simp [digit]
    | true => simp [digit]

theorem copyTranslate_spec (fuel : Nat) (text : Text) (enough : text.length ≤ fuel) :
    (copyTranslateEscChar fuel text = none ∧ ¬ EscapesFit text) ∨
      ∃ written, copyTranslateEscChar fuel text = some written ∧
        written.length ≤ text.length ∧ EscapesFit text := by
  induction fuel generalizing text with
  | zero =>
    obtain rfl : text = [] := List.eq_nil_of_length_eq_zero (by omega)
    exact .inr ⟨[], rfl, Nat.le_refl _, trivial⟩
  | succ fuel ih =>
    cases text with
    | nil => exact .inr ⟨[], rfl, Nat.le_refl _, trivial⟩
    | cons char rest =>
      have shorter : rest.length ≤ fuel := by simpa using enough
      -- one character is written for one that is read
      have single : ∀ byte : UInt8, (isEscapeChar char = true →
          (rest.takeWhile isDigit).length < numSize) →
          ((copyTranslateEscChar fuel rest).map (byte :: ·) = none ∧
            ¬ EscapesFit (char :: rest)) ∨
          ∃ written, (copyTranslateEscChar fuel rest).map (byte :: ·) = some written ∧
            written.length ≤ (char :: rest).length ∧ EscapesFit (char :: rest) := by
        intro byte few
        rcases ih rest shorter with ⟨none, tooLong⟩ | ⟨written, found, length, fits⟩
        · rw [none]
          exact .inl ⟨rfl, fun fits => tooLong fits.2⟩
        · rw [found]
          exact .inr ⟨byte :: written, rfl, by simpa using length, few, fits⟩
      rw [copyTranslateEscChar]
      cases escape : isEscapeChar char with
      | false => exact single char fun isEscape => by rw [escape] at isEscape; cases isEscape
      | true =>
        have isPercent : char = 37 := by simpa [isEscapeChar] using escape
        subst isPercent
        simp only [if_true, getParameter_escape]
        by_cases noDigit : (rest.takeWhile isDigit).length = 0
        · simp only [if_pos noDigit]
          exact single 37 fun _ => by rw [noDigit]; decide
        · by_cases few : (rest.takeWhile isDigit).length < numSize
          · simp only [if_neg noDigit, if_pos few]
            rw [if_neg (by omega)]
            have behind : ((37 : UInt8) :: rest).drop (1 + (rest.takeWhile isDigit).length) =
                rest.dropWhile isDigit := by
              rw [Nat.add_comm, List.drop_succ_cons, drop_length_takeWhile]
            have split : EscapesFit (rest.takeWhile isDigit ++ rest.dropWhile isDigit) ↔
                EscapesFit (rest.dropWhile isDigit) :=
              escapesFit_of_digits fun _ member => List.mem_takeWhile_imp member
            rw [List.takeWhile_append_dropWhile] at split
            have less := List.length_dropWhile_le isDigit rest
            rw [behind, EscapesFit, split]
            rcases ih (rest.dropWhile isDigit) (by omega) with
              ⟨none, tooLong⟩ | ⟨written, found, length, fits⟩
            · rw [none]
              exact .inl ⟨rfl, fun fits => tooLong fits.2⟩
            · rw [found]
              refine .inr ⟨_, rfl, ?_, fun _ => few, fits⟩
              simp only [List.length_cons]
              omega
          · simp only [if_neg noDigit, if_neg few]
            exact .inl ⟨trivial, fun fits => few (fits.1 rfl)⟩

theorem translated_isSome_iff {size : Nat} {text : Text} (room : text.length < size) :
    (translated size text).isSome ↔ EscapesFit text := by
  rw [translated]
  rcases copyTranslate_spec text.length text (Nat.le_refl _) with
    ⟨none, tooLong⟩ | ⟨written, found, length, fits⟩
  · simp [none, tooLong]
  · simp [found, copied, Nat.lt_of_le_of_lt length room, fits]

end Escapes

structure Here (after : TokenObj) : Prop where
  inputStr : after.inputStr = tkObj.inputStr
  idx : after.idx = tkObj.idx
  positive : 0 < after.currentOpLen

/-- The operator that is found ends inside the query, and its word can be decoded. -/
structure Inside (after : TokenObj) : Prop where
  here : Here tkObj after
  within : after.currentOpLen ≤ tkObj.src.length
  decoded : after.currentOperator = .star →
    after.starStrBuffer.length < maxInputstrLen ∧ EscapesFit after.starStrBuffer

/-- A function writes to its own buffers, and finds an operator inside the query. -/
def Sound (result : Match) : Prop :=
  result ≠ .overrun ∧ ∀ after, result = .yes after → Inside tkObj after

section Operators

variable {config tkObj}

theorem sound_no : Sound tkObj .no := by
  refine ⟨fun isOverrun => ?_, fun after found => ?_⟩
  · cases isOverrun
  · cases found

theorem sound_yes {after : TokenObj} (inside : Inside tkObj after) : Sound tkObj (.yes after) := by
  refine ⟨fun isOverrun => ?_, fun other found => ?_⟩
  · cases isOverrun
  · cases found
    exact inside

theorem inside_found {operator : Operator} {opLen numOperand : Nat} {opParam : Int}
    (positive : 0 < opLen) (within : opLen ≤ tkObj.src.length) (plain : operator ≠ .star) :
    Inside tkObj (tkObj.found operator opLen numOperand opParam) :=
  ⟨⟨rfl, rfl, positive⟩, within, fun isStar => absurd isStar plain⟩

theorem prefixCmp_le (src cmpStr : Text) : prefixCmp src cmpStr ≤ src.length := by
  rw [prefixCmp_eq]
  split
  · rename_i isPrefix
    exact isPrefix.length_le
  · exact Nat.zero_le _

theorem operatornCmp_le (src opcodeStr : Text) (isParamFollowing : Bool) :
    operatornCmp config tkObj src opcodeStr isParamFollowing ≤ src.length := by
  have bound := prefixCmp_le src opcodeStr
  simp only [operatornCmp]
  repeat' split
  all_goals first
    | exact bound
    | exact Nat.zero_le _

theorem firstOperator_le (src : Text) (isParamFollowing : Bool) (operators : List Text) :
    firstOperator config tkObj src isParamFollowing operators ≤ src.length := by
  induction operators with
  | nil => exact Nat.zero_le _
  | cons opcodeStr rest ih =>
    simp only [firstOperator]
    split
    · exact operatornCmp_le src opcodeStr isParamFollowing
    · exact ih

theorem firstPrefix_le (src : Text) (operators : List Text) :
    firstPrefix src operators ≤ src.length := by
  induction operators with
  | nil => exact Nat.zero_le _
  | cons opStr rest ih =>
    rw [firstPrefix]
    split
    · exact prefixCmp_le src opStr
    · exact ih

theorem isOpPlain_sound (operators : List Text) {operator : Operator} (numOperand : Nat)
    (plain : operator ≠ .star) : Sound tkObj (isOpPlain config tkObj operators operator numOperand) := by
  simp only [isOpPlain]
  split
  · rename_i found
    exact sound_yes (inside_found found (firstOperator_le _ _ _) plain)
  · exact sound_no

theorem nameAt_within {starts : Text → Text → Prop} {names : List Text} {src : Text} {i len : Nat}
    (bounded : ∀ name, starts src name → name.length ≤ src.length)
    (here : NameAt config tkObj starts names src i len) : 0 < len ∧ len ≤ src.length := by
  obtain ⟨name, opcodeStr, _, _, begins, _, ⟨notEmpty, isPrefix, _⟩, rfl⟩ := here
  have nameWithin := bounded name begins
  have opWithin := isPrefix.length_le
  have positive := List.length_pos_iff.mpr notEmpty
  rw [List.length_drop] at opWithin
  omega

theorem isOpFIELD_sound : Sound tkObj (isOpFIELD config tkObj) := by
  have bounded : ∀ name, startsWithName tkObj.src name = true →
      name.length ≤ tkObj.src.length := by
    intro name begins
    have lengths := congrArg List.length (of_decide_eq_true begins)
    simp only [List.length_map, List.length_take] at lengths
    omega
  have exact_ := (@isOpFIELD_exact config tkObj).2
  simp only [isOpFIELD] at exact_ ⊢
  split
  · exact sound_no
  · rename_i opLen opParam found
    rw [found] at exact_
    obtain ⟨i, here, _⟩ := exact_ _ rfl
    obtain ⟨positive, within⟩ := nameAt_within bounded here
    exact sound_yes (inside_found positive within (by decide))

theorem isOpVirtualFIELD_sound : Sound tkObj (isOpVirtualFIELD config tkObj) := by
  rw [isOpVirtualFIELD, virtualfieldOpCmp]
  rcases @virtualfieldLoop_cases config tkObj tkObj.src 0 0
    config.virtualFieldName with
    ⟨k, nameLen, opLen, here, positive, found⟩ | ⟨ended, _⟩
  · simp only [found, if_neg positive]
    have within := nameAt_within (fun _ isPrefix => isPrefix.length_le) here
    exact sound_yes (inside_found within.1 within.2 (by decide))
  · simp only [ended]
    split
    · rename_i none
      split at none
      · exact sound_no
      · cases none
    · rename_i found
      split at found
      · cases found
      · rename_i positive
        cases found
        have within : (config.virtualFieldName.getLast?.map (prefixCmp tkObj.src)).getD 0 ≤
            tkObj.src.length := by
          cases config.virtualFieldName.getLast? with
          | none => exact Nat.zero_le _
          | some name => exact prefixCmp_le tkObj.src name
        exact sound_yes (inside_found (Nat.pos_of_ne_zero positive) within (by decide))

theorem getParameter_eq_none_iff (theString : Text) :
    getParameter theString = none ↔ ¬ ParameterFits theString := by
  rw [getParameter, ParameterFits]
  cases isNumParamFollowing theString with
  | false => simp
  | true =>
    simp only [Bool.true_eq_false, if_false, forall_const]
    split <;> simp_all

theorem getParameter_le {theString : Text} {paramLen : Nat} {opParam : Int}
    (found : getParameter theString = some (paramLen, opParam)) : paramLen ≤ theString.length := by
  rw [getParameter] at found
  split at found
  · cases found
    exact Nat.zero_le _
  · rename_i following
    simp only [parameterDigits] at found
    split at found
    · split at found
      · cases found
        simp only [Nat.zero_add]
        exact (List.takeWhile_sublist _).length_le
      · cases found
    · split at found
      · cases found
        have less := (List.takeWhile_sublist isDigit (l := theString.drop 1)).length_le
        rw [List.length_drop] at less
        have positive : 0 < theString.length := by
          cases theString with
          | nil => exact absurd rfl following
          | cons char rest => exact Nat.succ_pos _
        simp only
        omega
      · cases found

theorem isOpPARA_sound_iff :
    Sound tkObj (isOpPARA config tkObj) ↔ OperatorParameterFits config tkObj config.opPARA := by
  rw [OperatorParameterFits]
  have bound := @firstOperator_le config tkObj tkObj.src true config.opPARA
  simp only [isOpPARA]
  by_cases found : 0 < firstOperator config tkObj tkObj.src true config.opPARA
  · rw [if_pos found]
    simp only [found, forall_const]
    cases parameter : getParameter
        (tkObj.src.drop (firstOperator config tkObj tkObj.src true config.opPARA)) with
    | none =>
      exact ⟨fun sound => absurd rfl sound.1,
        fun fits => absurd fits ((getParameter_eq_none_iff _).mp parameter)⟩
    | some entry =>
      obtain ⟨paramLen, opParam⟩ := entry
      have less := getParameter_le parameter
      rw [List.length_drop] at less
      constructor
      · intro _
        by_contra notFits
        rw [(getParameter_eq_none_iff _).mpr notFits] at parameter
        cases parameter
      · exact fun _ => sound_yes (inside_found (by omega) (by omega) (by decide))
  · rw [if_neg found]
    exact ⟨fun _ isFound => absurd isFound found, fun _ => sound_no⟩

theorem charAt_lt {src : Text} {index : Nat} (notNull : charAt src index ≠ 0) :
    index < src.length := by
  by_contra behind
  apply notNull
  rw [charAt, List.getD_eq_getElem?_getD, List.getElem?_eq_none (Nat.not_lt.mp behind)]
  rfl

theorem isOpWITHIN_sound_iff :
    Sound tkObj (isOpWITHIN config tkObj) ↔
      OperatorParameterFits config tkObj config.opWITHIN := by
  rw [OperatorParameterFits]
  simp only [isOpWITHIN]
  by_cases found : 0 < firstOperator config tkObj tkObj.src true config.opWITHIN
  · rw [if_pos found]
    simp only [found, forall_const]
    cases parameter : getParameter
        (tkObj.src.drop (firstOperator config tkObj tkObj.src true config.opWITHIN)) with
    | none =>
      exact ⟨fun sound => absurd rfl sound.1,
        fun fits => absurd fits ((getParameter_eq_none_iff _).mp parameter)⟩
    | some entry =>
      obtain ⟨paramLen, opParam⟩ := entry
      constructor
      · intro _
        by_contra notFits
        rw [(getParameter_eq_none_iff _).mpr notFits] at parameter
        cases parameter
      · intro _
        simp only
        split
        · exact sound_no
        · split
          · exact sound_no
          · rename_i isSlash
            rw [ne_eq, not_not] at isSlash
            have inside : charAt tkObj.src
                (firstOperator config tkObj tkObj.src true config.opWITHIN + paramLen) ≠ 0 := by
              rw [isSlash]
              decide
            have less := charAt_lt inside
            exact sound_yes (inside_found (by omega) (by omega) (by decide))
  · rw [if_neg found]
    exact ⟨fun _ isFound => absurd isFound found, fun _ => sound_no⟩

theorem star_sound_iff {offset length opLen : Nat} {opParam : Int} (positive : 0 < opLen)
    (short : tkObj.src.length < maxInputstrLen) :
    Sound tkObj (tkObj.star offset length opLen opParam) ↔
      length + opLen ≤ tkObj.src.length ∧ EscapesFit ((tkObj.src.drop offset).take length) := by
  have room : ((tkObj.src.drop offset).take length).length < maxInputstrLen := by
    rw [List.length_take, List.length_drop]
    omega
  rw [TokenObj.star, copied, if_pos room]
  constructor
  · intro sound
    have inside := sound.2 _ rfl
    exact ⟨inside.within, (inside.decoded rfl).2⟩
  · rintro ⟨within, fits⟩
    refine sound_yes ⟨⟨rfl, rfl, ?_⟩, within, fun _ => ⟨room, fits⟩⟩
    simp only [TokenObj.found]
    omega

theorem getNextTokenLength_le (offset : Nat) :
    getNextTokenLength config tkObj offset ≤ tkObj.src.length - offset := by
  rw [getNextTokenLength, ← List.length_drop]
  exact (List.takeWhile_sublist _).length_le

theorem starBehind_pos {src : Text} {opLen : Nat}
    (found : starBehind config tkObj src = some opLen) : 0 < opLen := by
  induction src with
  | nil => cases found
  | cons char src ih =>
    rw [starBehind] at found
    split at found
    · cases found
    · split at found
      · rename_i positive
        cases found
        exact positive
      · split at found
        · cases found
        · exact ih found

theorem isOpSTAR_sound_iff (short : tkObj.src.length < maxInputstrLen) :
    Sound tkObj (isOpSTAR config tkObj) ↔ TruncationFits config tkObj := by
  rw [TruncationFits]
  simp only [isOpSTAR]
  rcases Nat.eq_zero_or_pos (firstPrefix tkObj.src config.opSTAR) with none | found
  · rw [if_neg (by omega)]
    simp only [none, Nat.lt_irrefl, false_implies, true_and, forall_const]
    cases behind : starBehind config tkObj tkObj.src with
    | none => exact ⟨fun _ opLen isBehind => (by cases isBehind), fun _ => sound_no⟩
    | some opLen =>
      have sound := @star_sound_iff _ 0 (getNextTokenLength config tkObj 0) _
        starEnd (starBehind_pos behind) short
      rw [List.drop_zero] at sound
      simp only [Option.some.injEq, forall_eq']
      exact sound
  · rw [if_pos found]
    have within : getNextTokenLength config tkObj (firstPrefix tkObj.src config.opSTAR) +
        firstPrefix tkObj.src config.opSTAR ≤ tkObj.src.length := by
      have length := @getNextTokenLength_le config tkObj
        (firstPrefix tkObj.src config.opSTAR)
      have bound := firstPrefix_le tkObj.src config.opSTAR
      omega
    have notZero : firstPrefix tkObj.src config.opSTAR ≠ 0 := by omega
    rw [star_sound_iff found short, and_iff_right within]
    simp only [found, notZero, forall_const, false_implies, and_true]

theorem inside_single {operator : Operator} (notEmpty : tkObj.src ≠ [])
    (plain : operator ≠ .star) : Inside tkObj (tkObj.single operator) :=
  ⟨⟨rfl, rfl, Nat.one_pos⟩, List.length_pos_iff.mpr notEmpty, fun isStar => absurd isStar plain⟩

theorem isOpEND_PHRASE_sound (notEmpty : tkObj.src ≠ []) :
    Sound tkObj (isOpEND_PHRASE config tkObj) := by
  have inside := @inside_single _ .endPhrase notEmpty (by decide)
  rw [isOpEND_PHRASE]
  repeat' split
  all_goals first
    | exact sound_no
    | exact sound_yes ⟨⟨rfl, rfl, inside.here.positive⟩, inside.within, inside.decoded⟩

theorem isOpBEGIN_PHRASE_sound (notEmpty : tkObj.src ≠ []) :
    Sound tkObj (isOpBEGIN_PHRASE config tkObj) := by
  have inside := @inside_single _ .begPhrase notEmpty (by decide)
  rw [isOpBEGIN_PHRASE]
  repeat' split
  all_goals first
    | exact sound_no
    | exact sound_yes ⟨⟨rfl, rfl, inside.here.positive⟩, inside.within, inside.decoded⟩

theorem single_sound {p : Prop} [Decidable p] {operator : Operator} (notEmpty : tkObj.src ≠ [])
    (plain : operator ≠ .star) :
    Sound tkObj (if p then .yes (tkObj.single operator) else .no) := by
  split
  · exact sound_yes (inside_single notEmpty plain)
  · exact sound_no

theorem firstMatch_cons {isOp : Config → TokenObj → Match}
    {rest : List (Config → TokenObj → Match)} :
    Sound tkObj (firstMatch config tkObj (isOp :: rest)) ↔
      Sound tkObj (isOp config tkObj) ∧
        (isOp config tkObj = .no → Sound tkObj (firstMatch config tkObj rest)) := by
  rw [firstMatch]
  cases isOp config tkObj with
  | no => exact ⟨fun sound => ⟨sound_no, fun _ => sound⟩, fun both => both.2 rfl⟩
  | yes after => exact ⟨fun sound => ⟨sound, fun isNo => by cases isNo⟩, fun both => both.1⟩
  | overrun => exact ⟨fun sound => ⟨sound, fun isNo => by cases isNo⟩, fun both => both.1⟩

theorem firstMatch_cons_of_sound {isOp : Config → TokenObj → Match}
    {rest : List (Config → TokenObj → Match)} (sound : Sound tkObj (isOp config tkObj)) :
    Sound tkObj (firstMatch config tkObj (isOp :: rest)) ↔
      (isOp config tkObj = .no → Sound tkObj (firstMatch config tkObj rest)) := by
  rw [firstMatch_cons, and_iff_right sound]

theorem firstMatch_sound {operators : List (Config → TokenObj → Match)}
    (all : ∀ isOp ∈ operators, Sound tkObj (isOp config tkObj)) :
    Sound tkObj (firstMatch config tkObj operators) := by
  induction operators with
  | nil => exact sound_no
  | cons isOp rest ih =>
    obtain ⟨first, others⟩ := List.forall_mem_cons.mp all
    exact firstMatch_cons.mpr ⟨first, fun _ => ih others⟩

/-- An operator is found at the place of the token, wherever it ends. -/
def Found (tkObj : TokenObj) (result : Match) : Prop :=
  ∀ after, result = .yes after →
    Here tkObj after ∧
      (after.currentOperator = .star → after.starStrBuffer.length < maxInputstrLen)

theorem found_of_sound {result : Match} (sound : Sound tkObj result) : Found tkObj result :=
  fun after found =>
    ⟨(sound.2 after found).here, fun star => ((sound.2 after found).decoded star).1⟩

theorem isOpPARA_found : Found tkObj (isOpPARA config tkObj) := by
  intro after found
  simp only [isOpPARA] at found
  split at found
  · split at found
    · cases found
    · cases found
      refine ⟨⟨rfl, rfl, ?_⟩, fun star => (by cases star)⟩
      simp only [TokenObj.found]
      omega
  · cases found

theorem isOpWITHIN_found : Found tkObj (isOpWITHIN config tkObj) := by
  intro after found
  simp only [isOpWITHIN] at found
  repeat' split at found
  all_goals cases found
  exact ⟨⟨rfl, rfl, Nat.succ_pos _⟩, fun star => (by cases star)⟩

theorem star_found {offset length opLen : Nat} {opParam : Int} (positive : 0 < opLen) :
    Found tkObj (tkObj.star offset length opLen opParam) := by
  intro after found
  rw [TokenObj.star, copied] at found
  split at found
  · cases found
  · rename_i token isToken
    split at isToken
    · rename_i room
      cases isToken
      cases found
      refine ⟨⟨rfl, rfl, ?_⟩, fun _ => room⟩
      simp only [TokenObj.found]
      omega
    · cases isToken

theorem isOpSTAR_found : Found tkObj (isOpSTAR config tkObj) := by
  simp only [isOpSTAR]
  split
  · rename_i positive
    exact star_found positive
  · split
    · exact found_of_sound sound_no
    · rename_i behind
      exact star_found (starBehind_pos behind)

theorem firstMatch_found {operators : List (Config → TokenObj → Match)}
    (all : ∀ isOp ∈ operators, Found tkObj (isOp config tkObj)) :
    Found tkObj (firstMatch config tkObj operators) := by
  induction operators with
  | nil => exact found_of_sound sound_no
  | cons isOp rest ih =>
    obtain ⟨first, others⟩ := List.forall_mem_cons.mp all
    rw [firstMatch]
    cases result : isOp config tkObj with
    | no => exact ih others
    | yes after =>
      rw [result] at first
      exact first
    | overrun =>
      rw [result] at first
      exact first

theorem isOperator_found (notEmpty : tkObj.src ≠ []) : Found tkObj (isOperator config tkObj) := by
  rw [isOperator]
  split
  · exact found_of_sound (isOpEND_PHRASE_sound notEmpty)
  · apply firstMatch_found
    simp only [eachOperator, List.forall_mem_cons, List.not_mem_nil, false_implies, implies_true,
      and_true]
    have plain : ∀ operators operator numOperand, operator ≠ Operator.star →
        Found tkObj (isOpPlain config tkObj operators operator numOperand) :=
      fun operators _ numOperand isPlain =>
        found_of_sound (isOpPlain_sound operators numOperand isPlain)
    have mark : ∀ (p : Prop) [Decidable p] (operator : Operator), operator ≠ .star →
        Found tkObj (if p then .yes (tkObj.single operator) else .no) :=
      fun _ _ _ isPlain => found_of_sound (single_sound notEmpty isPlain)
    exact ⟨plain _ _ _ (by decide), plain _ _ _ (by decide), plain _ _ _ (by decide),
      isOpPARA_found, isOpWITHIN_found, plain _ _ _ (by decide), found_of_sound isOpFIELD_sound,
      found_of_sound isOpVirtualFIELD_sound, isOpSTAR_found,
      found_of_sound (isOpBEGIN_PHRASE_sound notEmpty),
      found_of_sound (isOpEND_PHRASE_sound notEmpty), mark _ _ (by decide), mark _ _ (by decide),
      mark _ _ (by decide), mark _ _ (by decide)⟩

theorem isOperator_sound_iff (notEmpty : tkObj.src ≠ [])
    (short : tkObj.src.length < maxInputstrLen) :
    Sound tkObj (isOperator config tkObj) ↔
      (tkObj.isPositionWithinPhrase = false → OperatorFits config tkObj) := by
  rw [isOperator]
  cases tkObj.isPositionWithinPhrase with
  | true => simp [isOpEND_PHRASE_sound notEmpty]
  | false =>
    have and_ : Sound tkObj (isOpAND config tkObj) := isOpPlain_sound _ _ (by decide)
    have or_ : Sound tkObj (isOpOR config tkObj) := isOpPlain_sound _ _ (by decide)
    have not_ : Sound tkObj (isOpNOT config tkObj) := isOpPlain_sound _ _ (by decide)
    have fuzzy : Sound tkObj (isOpFUZZY config tkObj) := isOpPlain_sound _ _ (by decide)
    have marks : Sound tkObj (firstMatch config tkObj
        [isOpBEGIN_PHRASE, isOpEND_PHRASE, fun _ => isOpBEGIN_PAREN, fun _ => isOpEND_PAREN,
          fun _ => isNaturalBegin, fun _ => isNaturalEnd]) := by
      apply firstMatch_sound
      simp only [List.forall_mem_cons, List.not_mem_nil, false_implies, implies_true, and_true]
      exact ⟨isOpBEGIN_PHRASE_sound notEmpty, isOpEND_PHRASE_sound notEmpty,
        single_sound notEmpty (by decide), single_sound notEmpty (by decide),
        single_sound notEmpty (by decide), single_sound notEmpty (by decide)⟩
    have asked : Sound tkObj (firstMatch config tkObj eachOperator) ↔
        (isOpAND config tkObj = .no → isOpOR config tkObj = .no → isOpNOT config tkObj = .no →
          OperatorParameterFits config tkObj config.opPARA ∧
          (isOpPARA config tkObj = .no →
            OperatorParameterFits config tkObj config.opWITHIN ∧
            (isOpWITHIN config tkObj = .no → isOpFUZZY config tkObj = .no →
              isOpFIELD config tkObj = .no → isOpVirtualFIELD config tkObj = .no →
              TruncationFits config tkObj))) := by
      rw [eachOperator, firstMatch_cons_of_sound and_, firstMatch_cons_of_sound or_,
        firstMatch_cons_of_sound not_, firstMatch_cons, isOpPARA_sound_iff, firstMatch_cons,
        isOpWITHIN_sound_iff, firstMatch_cons_of_sound fuzzy,
        firstMatch_cons_of_sound isOpFIELD_sound,
        firstMatch_cons_of_sound isOpVirtualFIELD_sound, firstMatch_cons,
        isOpSTAR_sound_iff short]
      simp only [marks, implies_true, and_true]
    simp only [Bool.false_eq_true, if_false, forall_const, asked, OperatorFits, NoneOf,
      List.forall_mem_cons, List.not_mem_nil, false_implies, implies_true, and_true]
    constructor
    · intro all
      refine ⟨fun none => ?_, fun none => ?_, fun none => ?_⟩
      · exact (all none.1 none.2.1 none.2.2).1
      · obtain ⟨noAnd, noOr, noNot, noPara⟩ := none
        exact ((all noAnd noOr noNot).2 noPara).1
      · obtain ⟨noAnd, noOr, noNot, noPara, noWithin, noFuzzy, noField, noVirtual⟩ := none
        exact ((all noAnd noOr noNot).2 noPara).2 noWithin noFuzzy noField noVirtual
    · rintro ⟨para, within, truncation⟩ noAnd noOr noNot
      refine ⟨para ⟨noAnd, noOr, noNot⟩, fun noPara => ?_⟩
      refine ⟨within ⟨noAnd, noOr, noNot, noPara⟩, fun noWithin noFuzzy noField noVirtual => ?_⟩
      exact truncation
        ⟨noAnd, noOr, noNot, noPara, noWithin, noFuzzy, noField, noVirtual⟩

end Operators

section Tokens

variable {config tkObj} {node : QueryNode}

theorem src_skip_le : (skipUselessChars tkObj).idx ≤ max tkObj.idx tkObj.inputStr.length := by
  have less := (List.takeWhile_sublist isUselessChar (l := tkObj.src)).length_le
  rw [TokenObj.src, List.length_drop] at less
  simp only [skipUselessChars, TokenObj.src]
  omega

theorem ready_skip (ready : Ready tkObj) : Ready (skipUselessChars tkObj) := by
  have within := @src_skip_le tkObj
  rw [max_eq_right ready.within] at within
  exact ⟨ready.short, ready.noNull, within⟩

theorem le_skip : tkObj.idx ≤ (skipUselessChars tkObj).idx := Nat.le_add_right _ _

theorem src_short (ready : Ready tkObj) : tkObj.src.length < maxInputstrLen := by
  have short := ready.short
  rw [TokenObj.src, List.length_drop]
  omega

theorem charAt_src_eq_zero_iff (ready : Ready tkObj) : charAt tkObj.src 0 = 0 ↔ tkObj.src = [] := by
  constructor
  · intro null
    by_contra notEmpty
    obtain ⟨char, rest, isCons⟩ := List.exists_cons_of_ne_nil notEmpty
    rw [isCons, charAt] at null
    have member : char ∈ tkObj.inputStr := by
      apply List.mem_of_mem_drop
      rw [← TokenObj.src, isCons]
      exact List.mem_cons_self
    exact ready.noNull (null ▸ member)
  · intro isEmpty
    rw [isEmpty]
    rfl

theorem skip_within_iff :
    (skipUselessChars tkObj).idx ≤ tkObj.inputStr.length ↔ tkObj.idx ≤ tkObj.inputStr.length := by
  have upper := @src_skip_le tkObj
  have lower := @le_skip tkObj
  omega

theorem operatorToken_safe_iff {after : TokenObj} {place : Nat} (ready : Ready tkObj)
    (before : place ≤ tkObj.idx) (here : Here tkObj after)
    (decodable : after.currentOperator = .star → after.starStrBuffer.length < maxInputstrLen) :
    (∃ token next, operatorToken after node maxOriginalWordLen = some (token, next) ∧
      (token = .endOfString ∨ place < next.idx) ∧ next.idx ≤ next.inputStr.length) ↔
      after.currentOpLen ≤ tkObj.src.length ∧
        (after.currentOperator = .star → EscapesFit after.starStrBuffer) := by
  let moved : TokenObj :=
    { after with idx := after.idx + after.currentOpLen, lastOperator := after.currentOperator }
  have within : (skipUselessChars moved).idx ≤ (skipUselessChars moved).inputStr.length ↔
      after.currentOpLen ≤ tkObj.src.length := by
    have position := @skip_within_iff moved
    have inside := ready.within
    have length := List.length_drop (i := tkObj.idx) (l := tkObj.inputStr)
    simp only [moved, here.inputStr, here.idx] at position
    rw [TokenObj.src, length]
    refine Iff.trans (?_ : _ ↔ tkObj.idx + after.currentOpLen ≤ tkObj.inputStr.length) (by omega)
    rw [← position]
    simp only [skipUselessChars, moved, here.inputStr, here.idx]
  have forward : place < (skipUselessChars moved).idx := by
    have start := @le_skip moved
    have positive := here.positive
    simp only [moved, here.idx] at start ⊢
    omega
  rw [← within]
  simp only [operatorToken, operatorProcess]
  by_cases star : after.currentOperator = .star
  · have room := decodable star
    have small : ¬ after.starStrBuffer.length ≥ maxOriginalWordLen := by
      simp only [maxOriginalWordLen, maxInputstrLen] at room ⊢
      omega
    have whole : after.starStrBuffer.take (min maxOriginalWordLen maxTmpStr - 1) =
        after.starStrBuffer := by
      apply List.take_of_length_le
      simp only [maxOriginalWordLen, maxTmpStr, maxInputstrLen] at room ⊢
      omega
    have fits := @translated_isSome_iff (maxOriginalWordLen + 1)
      after.starStrBuffer (by simp only [maxOriginalWordLen, maxInputstrLen] at room ⊢; omega)
    simp only [skipUselessChars, star, ne_eq, not_true_eq_false, if_false, if_neg small, whole,
      forall_const]
    rw [← fits, Option.isSome_iff_exists]
    constructor
    · rintro ⟨token, next, ran, _, inside⟩
      obtain ⟨word, found, isNext⟩ := Option.map_eq_some_iff.mp ran
      cases isNext
      exact ⟨inside, word, found⟩
    · rintro ⟨inside, word, found⟩
      exact ⟨_, _, Option.map_eq_some_iff.mpr ⟨word, found, rfl⟩, .inr forward, inside⟩
  · simp only [skipUselessChars, ne_eq, star, not_false_eq_true, if_true, false_implies, and_true]
    constructor
    · rintro ⟨token, next, ran, _, inside⟩
      cases ran
      exact inside
    · intro inside
      exact ⟨_, _, rfl, .inr forward, inside⟩

theorem wordToken_safe_iff {place : Nat} (ready : Ready tkObj) (before : place ≤ tkObj.idx)
    (notEmpty : tkObj.src ≠ []) :
    (∃ token next, wordToken config tkObj node maxOriginalWordLen = some (token, next) ∧
      (token = .endOfString ∨ place < next.idx) ∧ next.idx ≤ next.inputStr.length) ↔
      EscapesFit (nextWord config tkObj) := by
  have short := src_short ready
  have bound := @getNextTokenLength_le config tkObj 0
  have length := List.length_drop (i := tkObj.idx) (l := tkObj.inputStr)
  have positive := List.length_pos_iff.mpr notEmpty
  rw [← TokenObj.src] at length
  simp only [maxInputstrLen] at short
  simp only [wordToken, nextWord]
  by_cases none : getNextTokenLength config tkObj 0 = 0
  · rw [if_pos ⟨none, by rw [none]; decide⟩, none, List.take_zero]
    exact ⟨fun _ => trivial,
      fun _ => ⟨_, _, rfl, .inr (Nat.lt_succ_of_le before), by simp only; omega⟩⟩
  · have small : ¬ getNextTokenLength config tkObj 0 ≥ maxOriginalWordLen := by
      simp only [maxOriginalWordLen]
      omega
    have room : (tkObj.src.take (getNextTokenLength config tkObj 0)).length < maxTmpStr + 1 := by
      rw [List.length_take]
      simp only [maxTmpStr]
      omega
    rw [if_neg fun both => none both.1, if_neg (by decide), if_neg small]
    simp only [copied, if_pos room]
    rw [← translated_isSome_iff room, Option.isSome_iff_exists]
    constructor
    · rintro ⟨token, next, ran, _⟩
      split at ran
      · cases ran
      · rename_i word found
        exact ⟨word, found⟩
    · rintro ⟨word, found⟩
      rw [found]
      refine ⟨_, _, rfl, .inr ?_, ?_⟩
      · simp only
        omega
      · simp only
        omega

theorem callSafe_iff (ready : Ready tkObj) :
    CallSafe config tkObj node ↔
      (skipUselessChars tkObj).src = [] ∨ NextFits config (skipUselessChars tkObj) := by
  have skipped := ready_skip ready
  have start := @le_skip tkObj
  rw [CallSafe]
  simp only [tkGetNextToken]
  by_cases isEmpty : (skipUselessChars tkObj).src = []
  · rw [if_pos ((charAt_src_eq_zero_iff skipped).mpr isEmpty)]
    exact ⟨fun _ => .inl isEmpty, fun _ => ⟨_, _, rfl, .inl rfl, skipped.within⟩⟩
  · rw [if_neg (mt (charAt_src_eq_zero_iff skipped).mp isEmpty), or_iff_right isEmpty, NextFits,
      ← isOperator_sound_iff isEmpty (src_short skipped)]
    have found := @isOperator_found config _ isEmpty
    cases result : isOperator config (skipUselessChars tkObj) with
    | overrun =>
      constructor
      · rintro ⟨_, _, ran, _⟩
        cases ran
      · intro fits
        exact absurd rfl fits.1.1
    | yes after =>
      rw [result] at found
      obtain ⟨here, decodable⟩ := found after rfl
      rw [operatorToken_safe_iff skipped start here decodable]
      constructor
      · rintro ⟨within, fits⟩
        exact ⟨sound_yes ⟨here, within, fun star => ⟨decodable star, fits star⟩⟩,
          fun isNo => (by cases isNo)⟩
      · rintro ⟨sound, _⟩
        have inside := sound.2 after rfl
        exact ⟨inside.within, fun star => (inside.decoded star).2⟩
    | no =>
      rw [wordToken_safe_iff skipped start isEmpty]
      exact ⟨fun fits => ⟨sound_no, fun _ => fits⟩, fun both => both.2 rfl⟩

end Tokens

end Wisebot.Tokenizer
