import Wisebot.Tokenizer.Tokens

namespace Wisebot.Tokenizer

/-! Which texts are recognised as the name of a field with its operator. A name
without an operator is passed over by `fieldOpCmp`; `virtualfieldOpCmp` still holds
the length of the last name it has compared. -/

variable (config : Config) (tkObj : TokenObj)

section Operators

theorem prefixFrom_eq (index : Nat) (src cmpStr : Text) :
    prefixFrom index src cmpStr = if cmpStr <+: src then index + cmpStr.length else 0 := by
  induction cmpStr generalizing index src with
  | nil => simp [prefixFrom]
  | cons other cmpStr ih =>
    cases src with
    | nil => simp [prefixFrom]
    | cons char src =>
      rw [prefixFrom]
      by_cases same : char = other
      · subst same
        rw [if_pos rfl, ih]
        simp only [List.prefix_cons_inj, List.length_cons]
        rw [Nat.add_assoc, Nat.add_comm 1]
      · rw [if_neg same, if_neg]
        intro isPrefix
        exact same (List.cons_prefix_cons.mp isPrefix).1.symm

theorem prefixCmp_eq (src cmpStr : Text) :
    prefixCmp src cmpStr = if cmpStr <+: src then cmpStr.length else 0 := by
  rw [prefixCmp, prefixFrom_eq, Nat.zero_add]

theorem prefixCmp_eq_zero_iff (src cmpStr : Text) :
    prefixCmp src cmpStr = 0 ↔ cmpStr = [] ∨ ¬ cmpStr <+: src := by
  rw [prefixCmp_eq]
  split
  · rename_i isPrefix
    simp [isPrefix]
  · rename_i notPrefix
    simp [notPrefix]

/-- An operator at the beginning of a text: a word needs something behind it that
ends it. -/
def OperatorAt (src opcodeStr : Text) : Prop :=
  opcodeStr ≠ [] ∧ opcodeStr <+: src ∧
    (isAlphaNumericOperator opcodeStr = true →
      isUselessChar (charAt src opcodeStr.length) = true ∨ charAt src opcodeStr.length = 0 ∨
        isStopChar config tkObj (charAt src opcodeStr.length) = true)

variable {config tkObj} {src opcodeStr : Text}

theorem operatornCmp_of_operatorAt (here : OperatorAt config tkObj src opcodeStr) :
    operatornCmp config tkObj src opcodeStr false = opcodeStr.length := by
  obtain ⟨notEmpty, isPrefix, ended⟩ := here
  have length : prefixCmp src opcodeStr = opcodeStr.length := by
    rw [prefixCmp_eq, if_pos isPrefix]
  have positive : opcodeStr.length ≠ 0 := by simpa using notEmpty
  simp only [operatornCmp, length, if_neg positive]
  cases isWord : isAlphaNumericOperator opcodeStr with
  | false => rfl
  | true =>
    rcases ended isWord with useless | isEnd | isStop
    · simp [useless]
    · simp [isEnd]
    · simp [isStop]

theorem operatornCmp_of_not (notHere : ¬ OperatorAt config tkObj src opcodeStr) :
    operatornCmp config tkObj src opcodeStr false = 0 := by
  simp only [operatornCmp]
  by_cases none : prefixCmp src opcodeStr = 0
  · rw [if_pos none]
  · rw [if_neg none]
    rw [prefixCmp_eq_zero_iff, not_or, not_not] at none
    obtain ⟨notEmpty, isPrefix⟩ := none
    have length : prefixCmp src opcodeStr = opcodeStr.length := by
      rw [prefixCmp_eq, if_pos isPrefix]
    have open_ : isAlphaNumericOperator opcodeStr = true ∧
        ¬ (isUselessChar (charAt src opcodeStr.length) = true ∨
          charAt src opcodeStr.length = 0 ∨
          isStopChar config tkObj (charAt src opcodeStr.length) = true) :=
      Classical.not_imp.mp fun ended => notHere ⟨notEmpty, isPrefix, ended⟩
    obtain ⟨isWord, notEnded⟩ := open_
    rw [not_or, not_or] at notEnded
    rw [length, if_neg (by simp [isWord]), if_neg notEnded.1, if_neg notEnded.2.1,
      if_neg notEnded.2.2]
    rfl

theorem firstOperator_cases (operators : List Text) :
    (∃ opcodeStr ∈ operators, OperatorAt config tkObj src opcodeStr ∧
      firstOperator config tkObj src false operators = opcodeStr.length) ∨
    (firstOperator config tkObj src false operators = 0 ∧
      ∀ opcodeStr ∈ operators, ¬ OperatorAt config tkObj src opcodeStr) := by
  induction operators with
  | nil => exact .inr ⟨rfl, List.forall_mem_nil _⟩
  | cons opcodeStr rest ih =>
    rw [firstOperator]
    by_cases here : OperatorAt config tkObj src opcodeStr
    · have positive := List.length_pos_iff.mpr here.1
      rw [operatornCmp_of_operatorAt here, if_pos positive]
      exact .inl ⟨opcodeStr, List.mem_cons_self, here, rfl⟩
    · rw [operatornCmp_of_not here, if_neg (Nat.lt_irrefl 0)]
      rcases ih with ⟨other, member, there, length⟩ | ⟨nothing, none⟩
      · exact .inl ⟨other, List.mem_cons_of_mem _ member, there, length⟩
      · exact .inr ⟨nothing, List.forall_mem_cons.mpr ⟨here, none⟩⟩

end Operators

/-- A text begins with the name at an index and an operator of fields, of this length
together; `starts` is how the name is compared. -/
def NameAt (starts : Text → Text → Prop) (names : List Text) (src : Text) (i len : Nat) : Prop :=
  ∃ name opcodeStr, names[i]? = some name ∧ name ≠ [] ∧ starts src name ∧
    opcodeStr ∈ config.opFIELD ∧ OperatorAt config tkObj (src.drop name.length) opcodeStr ∧
    len = name.length + opcodeStr.length

def FieldAt : (i len : Nat) → Prop :=
  NameAt config tkObj (fun src name => startsWithName src name = true) config.fieldName tkObj.src

def VirtualFieldAt : (i len : Nat) → Prop :=
  NameAt config tkObj (fun src name => name <+: src) config.virtualFieldName tkObj.src

def Exact (result : Match) (isAt : Nat → Nat → Prop) (param : Nat → Int) : Prop :=
  ((∃ after, result = .yes after) ↔ ∃ i len, isAt i len) ∧
    ∀ after, result = .yes after →
      ∃ i, isAt i after.currentOpLen ∧ after.currentOpParam = param i

section Names

variable {config tkObj} {starts : Text → Text → Prop} {name : Text} {rest : List Text} {src : Text}

theorem nameAt_succ {i len : Nat} :
    NameAt config tkObj starts (name :: rest) src (i + 1) len ↔
      NameAt config tkObj starts rest src i len := by
  simp only [NameAt, List.getElem?_cons_succ]

theorem exists_nameAt_cons :
    (∃ i len, NameAt config tkObj starts (name :: rest) src i len) ↔
      (∃ len, NameAt config tkObj starts (name :: rest) src 0 len) ∨
        ∃ i len, NameAt config tkObj starts rest src i len := by
  constructor
  · rintro ⟨i, len, here⟩
    cases i with
    | zero => exact .inl ⟨len, here⟩
    | succ i => exact .inr ⟨i, len, nameAt_succ.mp here⟩
  · rintro (⟨len, here⟩ | ⟨i, len, there⟩)
    · exact ⟨0, len, here⟩
    · exact ⟨i + 1, len, nameAt_succ.mpr there⟩

theorem nameAt_zero {len : Nat} :
    NameAt config tkObj starts (name :: rest) src 0 len ↔
      name ≠ [] ∧ starts src name ∧ ∃ opcodeStr ∈ config.opFIELD,
        OperatorAt config tkObj (src.drop name.length) opcodeStr ∧
          len = name.length + opcodeStr.length := by
  simp only [NameAt, List.getElem?_cons_zero, Option.some.injEq]
  constructor
  · rintro ⟨_, opcodeStr, rfl, notEmpty, begins, member, here, length⟩
    exact ⟨notEmpty, begins, opcodeStr, member, here, length⟩
  · rintro ⟨notEmpty, begins, opcodeStr, member, here, length⟩
    exact ⟨name, opcodeStr, rfl, notEmpty, begins, member, here, length⟩

end Names

section Fields

variable {config tkObj} {src : Text}

theorem fieldLoop_cases (i : Nat) (names : List Text) :
    (∃ k len, NameAt config tkObj (fun src name => startsWithName src name = true) names src k len ∧
      fieldLoop config tkObj src i names = some (len, ((i + k : Nat) : Int))) ∨
    (fieldLoop config tkObj src i names = none ∧
      ¬ ∃ k len,
        NameAt config tkObj (fun src name => startsWithName src name = true) names src k len) := by
  induction names generalizing i with
  | nil =>
    refine .inr ⟨rfl, ?_⟩
    rintro ⟨k, len, name, opcodeStr, isName, _⟩
    cases isName
  | cons name rest ih =>
    rw [exists_nameAt_cons, fieldLoop]
    -- the name is passed over: it is empty, not there, or without an operator
    have passed (missing : ¬ ∃ len, NameAt config tkObj
        (fun src name => startsWithName src name = true) (name :: rest) src 0 len) :
        (∃ k len, NameAt config tkObj (fun src name => startsWithName src name = true)
            (name :: rest) src k len ∧
          fieldLoop config tkObj src (i + 1) rest = some (len, ((i + k : Nat) : Int))) ∨
        (fieldLoop config tkObj src (i + 1) rest = none ∧
          ¬ ((∃ len, NameAt config tkObj (fun src name => startsWithName src name = true)
              (name :: rest) src 0 len) ∨
            ∃ k len, NameAt config tkObj (fun src name => startsWithName src name = true)
              rest src k len)) := by
      rcases ih (i + 1) with ⟨k, len, there, found⟩ | ⟨none, nowhere⟩
      · refine .inl ⟨k + 1, len, nameAt_succ.mpr there, ?_⟩
        rw [found, Nat.add_assoc, Nat.add_comm 1 k]
      · exact .inr ⟨none, not_or.mpr ⟨missing, nowhere⟩⟩
    split
    · rename_i isEmpty
      exact passed fun here => (nameAt_zero.mp here.choose_spec).1 isEmpty
    · rename_i notEmpty
      split
      · rename_i differs
        refine passed fun here => ?_
        have begins := (nameAt_zero.mp here.choose_spec).2.1
        rw [differs] at begins
        cases begins
      · rename_i begins
        rcases @firstOperator_cases config tkObj
          (src.drop name.length) config.opFIELD with
          ⟨opcodeStr, member, here, length⟩ | ⟨nothing, none⟩
        · have positive := List.length_pos_iff.mpr here.1
          simp only [length]
          rw [if_pos (Nat.pos_iff_ne_zero.mp positive)]
          exact .inl ⟨0, _, nameAt_zero.mpr ⟨notEmpty, by simpa using begins, opcodeStr, member,
            here, rfl⟩, rfl⟩
        · simp only [nothing, ne_eq, not_true_eq_false, if_false]
          refine passed fun here => ?_
          obtain ⟨_, _, opcodeStr, member, isAt, _⟩ := nameAt_zero.mp here.choose_spec
          exact none opcodeStr member isAt

theorem isOpFIELD_exact : Exact (isOpFIELD config tkObj) (FieldAt config tkObj) (fun i => i) := by
  rw [isOpFIELD, fieldOpCmp]
  rcases @fieldLoop_cases config tkObj tkObj.src 0
    config.fieldName with ⟨k, len, here, found⟩ | ⟨none, nowhere⟩
  · rw [found]
    refine ⟨⟨fun _ => ⟨k, len, here⟩, fun _ => ⟨_, rfl⟩⟩, fun after isAfter => ?_⟩
    cases isAfter
    refine ⟨k, here, ?_⟩
    simp [TokenObj.found]
  · rw [none]
    refine ⟨⟨?_, fun there => absurd there nowhere⟩, ?_⟩
    · rintro ⟨after, isAfter⟩
      cases isAfter
    · intro after isAfter
      cases isAfter

end Fields

def LastNameBegins : Prop :=
  ∃ name ∈ config.virtualFieldName.getLast?, name ≠ [] ∧ name <+: tkObj.src

section Virtual

variable {config tkObj} {src : Text}

/-- Where no name with an operator is found, the length is left that the last name
has been compared over. -/
theorem virtualfieldLoop_cases (i paramLen : Nat) (names : List Text) :
    (∃ k nameLen opLen,
      NameAt config tkObj (fun src name => name <+: src) names src k (nameLen + opLen) ∧
        nameLen ≠ 0 ∧
        virtualfieldLoop config tkObj src i paramLen 0 names = (i + k, nameLen, opLen)) ∨
    (virtualfieldLoop config tkObj src i paramLen 0 names =
        (i + names.length, (names.getLast?.map (prefixCmp src)).getD paramLen, 0) ∧
      ¬ ∃ k len, NameAt config tkObj (fun src name => name <+: src) names src k len) := by
  induction names generalizing i paramLen with
  | nil =>
    refine .inr ⟨rfl, ?_⟩
    rintro ⟨k, len, name, opcodeStr, isName, _⟩
    cases isName
  | cons name rest ih =>
    rw [exists_nameAt_cons, virtualfieldLoop]
    have passed (missing : ¬ ∃ len,
        NameAt config tkObj (fun src name => name <+: src) (name :: rest) src 0 len) :
        (∃ k nameLen opLen,
          NameAt config tkObj (fun src name => name <+: src) (name :: rest) src k
            (nameLen + opLen) ∧ nameLen ≠ 0 ∧
          virtualfieldLoop config tkObj src (i + 1) (prefixCmp src name) 0 rest =
            (i + k, nameLen, opLen)) ∨
        (virtualfieldLoop config tkObj src (i + 1) (prefixCmp src name) 0 rest =
            (i + (name :: rest).length,
              ((name :: rest).getLast?.map (prefixCmp src)).getD paramLen, 0) ∧
          ¬ ((∃ len, NameAt config tkObj (fun src name => name <+: src) (name :: rest) src 0
              len) ∨
            ∃ k len, NameAt config tkObj (fun src name => name <+: src) rest src k len)) := by
      rcases ih (i + 1) (prefixCmp src name) with
        ⟨k, nameLen, opLen, there, positive, found⟩ | ⟨ended, nowhere⟩
      · refine .inl ⟨k + 1, nameLen, opLen, nameAt_succ.mpr there, positive, ?_⟩
        rw [found, Nat.add_assoc, Nat.add_comm 1 k]
      · refine .inr ⟨?_, not_or.mpr ⟨missing, nowhere⟩⟩
        rw [ended, List.length_cons, Nat.add_assoc, Nat.add_comm 1]
        cases rest with
        | nil => rfl
        | cons next rest =>
          rw [List.getLast?_cons_cons,
            List.getLast?_eq_some_getLast (List.cons_ne_nil next rest)]
          rfl
    split
    · rename_i differs
      refine passed fun here => ?_
      have begins := (nameAt_zero.mp here.choose_spec)
      rcases (prefixCmp_eq_zero_iff src name).mp differs with isEmpty | notPrefix
      · exact begins.1 isEmpty
      · exact notPrefix begins.2.1
    · rename_i begins
      obtain ⟨notEmpty, isPrefix⟩ :=
        not_or.mp (mt (prefixCmp_eq_zero_iff src name).mpr begins)
      rw [not_not] at isPrefix
      have length : prefixCmp src name = name.length := by
        rw [prefixCmp_eq, if_pos isPrefix]
      rcases @firstOperator_cases config tkObj
        (src.drop (prefixCmp src name)) config.opFIELD with
        ⟨opcodeStr, member, here, opLength⟩ | ⟨nothing, none⟩
      · have positive := List.length_pos_iff.mpr here.1
        simp only [opLength]
        rw [if_pos (Nat.pos_iff_ne_zero.mp positive)]
        rw [length] at here begins ⊢
        exact .inl ⟨0, _, _, nameAt_zero.mpr ⟨notEmpty, isPrefix, opcodeStr, member, here, rfl⟩,
          begins, rfl⟩
      · simp only [nothing, ne_eq, not_true_eq_false, if_false]
        refine passed fun here => ?_
        obtain ⟨_, _, opcodeStr, member, isAt, _⟩ := nameAt_zero.mp here.choose_spec
        rw [length] at none
        exact none opcodeStr member isAt

theorem lastNameBegins_iff :
    LastNameBegins config tkObj ↔
      (config.virtualFieldName.getLast?.map (prefixCmp tkObj.src)).getD 0 ≠ 0 := by
  rw [LastNameBegins]
  cases config.virtualFieldName.getLast? with
  | none => simp
  | some name => simp [prefixCmp_eq_zero_iff, not_or]

theorem isOpVirtualFIELD_exact_iff :
    Exact (isOpVirtualFIELD config tkObj) (VirtualFieldAt config tkObj)
        (fun i => maskParam (config.virtualFieldIds i)) ↔
      (LastNameBegins config tkObj → ∃ i len, VirtualFieldAt config tkObj i len) := by
  rw [isOpVirtualFIELD, virtualfieldOpCmp, lastNameBegins_iff]
  rcases @virtualfieldLoop_cases config tkObj tkObj.src 0 0
    config.virtualFieldName with
    ⟨k, nameLen, opLen, here, positive, found⟩ | ⟨ended, nowhere⟩
  · simp only [found, if_neg positive]
    refine ⟨fun _ _ => ⟨k, _, here⟩, fun _ => ⟨⟨fun _ => ⟨k, _, here⟩, fun _ => ⟨_, rfl⟩⟩, ?_⟩⟩
    intro after isAfter
    cases isAfter
    refine ⟨k, here, ?_⟩
    simp [TokenObj.found]
  · simp only [ended]
    constructor
    · intro exact_ begins
      rw [if_neg begins] at exact_
      exact exact_.1.mp ⟨_, rfl⟩
    · intro holds
      by_cases begins : (config.virtualFieldName.getLast?.map (prefixCmp tkObj.src)).getD 0 = 0
      · rw [if_pos begins]
        refine ⟨⟨?_, fun there => absurd there nowhere⟩, ?_⟩
        · rintro ⟨after, isAfter⟩
          cases isAfter
        · intro after isAfter
          cases isAfter
      · exact absurd (holds begins) nowhere

end Virtual

/-- Both recognisers find what is written exactly when the last virtual name does not
begin the text, or some virtual name there has an operator. -/
theorem fieldPrefix_exact_iff (config : Config) (tkObj : TokenObj) :
    (Exact (isOpFIELD config tkObj) (FieldAt config tkObj) (fun i => i) ∧
        Exact (isOpVirtualFIELD config tkObj) (VirtualFieldAt config tkObj)
          (fun i => maskParam (config.virtualFieldIds i))) ↔
      (LastNameBegins config tkObj → ∃ i len, VirtualFieldAt config tkObj i len) := by
  rw [and_iff_right isOpFIELD_exact, isOpVirtualFIELD_exact_iff]

def ascii (text : String) : Text := text.toList.map fun char => char.toNat.toUInt8

/-- The operators of the source, with the virtual field `ALL`. -/
def allFields : Config where
  opAND := [ascii "AND", ascii "&"]
  opOR := [ascii "OR", ascii "|"]
  opNOT := [ascii "NOT", ascii "!"]
  opPARA := [ascii "PARA"]
  opWITHIN := [ascii "/"]
  opFUZZY := [ascii "FUZZY"]
  opFIELD := [ascii ":"]
  opSTAR := [ascii "*"]
  fieldName := [ascii "title", ascii "body"]
  virtualFieldName := [ascii "ALL"]
  virtualFieldIds := fun index => if index = 0 then 0x0e00 else 0
  opBeginPhrase := 34
  opEndPhrase := 34
  isPhraseOperatorSame := true
  stopChars := StopChars.initial

/-- A query before its first token. -/
def query (text : String) : TokenObj where
  inputStr := ascii text
  idx := 0
  currentOperator := .operand
  currentNumOperand := 0
  currentOpLen := 0
  currentOpParam := 0
  lastOperator := .operand
  starStrBuffer := []
  isBeginPhraseTurn := true
  isPositionWithinPhrase := false

/-- The word is taken for the virtual field `ALL`. -/
theorem fieldPrefix_allergy :
    ¬ (Exact (isOpFIELD allFields (query "ALLERGY")) (FieldAt allFields (query "ALLERGY"))
          (fun i => i) ∧
        Exact (isOpVirtualFIELD allFields (query "ALLERGY"))
          (VirtualFieldAt allFields (query "ALLERGY"))
          (fun i => maskParam (allFields.virtualFieldIds i))) := by
  rw [and_iff_right isOpFIELD_exact, isOpVirtualFIELD_exact_iff]
  intro holds
  obtain ⟨i, len, name, opcodeStr, isName, _, _, isOp, ⟨_, isPrefix, _⟩, _⟩ :=
    holds ⟨ascii "ALL", by decide, by decide, by decide⟩
  have isAll : name = ascii "ALL" := by
    cases i with
    | zero => exact (Option.some.inj isName).symm
    | succ i => cases isName
  obtain rfl : opcodeStr = ascii ":" := List.mem_singleton.mp isOp
  subst isAll
  exact absurd isPrefix (by decide)

end Wisebot.Tokenizer
