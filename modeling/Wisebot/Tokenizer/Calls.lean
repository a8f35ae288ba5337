import Wisebot.Tokenizer.Bounds

namespace Wisebot.Tokenizer

/-! The tokens of a whole query, from its string to the end, and the list of stop
characters that has been configured before. The list begins with six characters and
counts eight, so that what is added stands behind its end. -/

variable (config : Config)

/-- The tokenizer after so many calls; `none` is a write behind a buffer. -/
def afterCalls (node : QueryNode) : Nat → TokenObj → Option TokenObj
  | 0, tkObj => some tkObj
  | count + 1, tkObj =>
    match tkGetNextToken config tkObj node maxOriginalWordLen with
    | none => none
    | some (_, after) => afterCalls node count after

section Calls

variable {config} {tkObj : TokenObj} {node : QueryNode}

theorem inputStr_operatorToken {after next : TokenObj} {token : Token} {maxLen : Nat}
    (ran : operatorToken after node maxLen = some (token, next)) :
    next.inputStr = after.inputStr := by
  simp only [operatorToken, operatorProcess, skipUselessChars] at ran
  by_cases star : after.currentOperator = .star
  · simp only [star, ne_eq, not_true_eq_false, if_false] at ran
    split at ran
    · cases ran
      rfl
    · obtain ⟨word, _, isNext⟩ := Option.map_eq_some_iff.mp ran
      cases isNext
      rfl
  · simp only [ne_eq, star, not_false_eq_true, if_true] at ran
    cases ran
    rfl

theorem inputStr_wordToken {next : TokenObj} {token : Token} {maxLen : Nat}
    (ran : wordToken config tkObj node maxLen = some (token, next)) :
    next.inputStr = tkObj.inputStr := by
  simp only [wordToken] at ran
  repeat' split at ran
  all_goals
    cases ran
    try rfl

theorem inputStr_tkGetNextToken {next : TokenObj} {token : Token} {maxLen : Nat}
    (ready : Ready tkObj) (ran : tkGetNextToken config tkObj node maxLen = some (token, next)) :
    next.inputStr = tkObj.inputStr := by
  simp only [tkGetNextToken] at ran
  split at ran
  · cases ran
    rfl
  · rename_i notNull
    have notEmpty := mt (charAt_src_eq_zero_iff (ready_skip ready)).mpr notNull
    split at ran
    · cases ran
    · rename_i found isFound
      rw [inputStr_operatorToken ran]
      exact (@isOperator_found config _ notEmpty found isFound).1.inputStr
    · rw [inputStr_wordToken ran]
      rfl

theorem ready_after {after : TokenObj} {token : Token} (ready : Ready tkObj)
    (safe : CallSafe config tkObj node)
    (ran : tkGetNextToken config tkObj node maxOriginalWordLen = some (token, after)) :
    Ready after := by
  obtain ⟨other, found, isFound, _, within⟩ := safe
  rw [ran] at isFound
  cases isFound
  have same := inputStr_tkGetNextToken ready ran
  exact ⟨same ▸ ready.short, same ▸ ready.noNull, within⟩

theorem afterCalls_succ {count : Nat} {after : TokenObj}
    (ran : afterCalls config node (count + 1) tkObj = some after) :
    ∃ middle token, afterCalls config node count tkObj = some middle ∧
      tkGetNextToken config middle node maxOriginalWordLen = some (token, after) := by
  induction count generalizing tkObj with
  | zero =>
    rw [afterCalls] at ran
    split at ran
    · cases ran
    · rename_i token next once
      cases ran
      exact ⟨tkObj, token, rfl, once⟩
  | succ count ih =>
    rw [afterCalls] at ran
    split at ran
    · cases ran
    · rename_i token next once
      obtain ⟨middle, last, reached, ranLast⟩ := ih ran
      refine ⟨middle, last, ?_, ranLast⟩
      rw [afterCalls, once]
      exact reached

theorem calls_safe_iff (ready : Ready tkObj) :
    (∀ count after, afterCalls config node count tkObj = some after → CallSafe config after node) ↔
      ∀ count after, afterCalls config node count tkObj = some after →
        (skipUselessChars after).src = [] ∨ NextFits config (skipUselessChars after) := by
  have reached (safe : ∀ count after, Ready after →
      afterCalls config node count tkObj = some after → CallSafe config after node) :
      ∀ count after, afterCalls config node count tkObj = some after → Ready after := by
    intro count
    induction count with
    | zero =>
      intro after ran
      cases ran
      exact ready
    | succ count ih =>
      intro after ran
      obtain ⟨middle, token, before, once⟩ := afterCalls_succ ran
      have readyMiddle := ih middle before
      exact ready_after readyMiddle (safe count middle readyMiddle before) once
  constructor
  · intro safe count after ran
    have readyAfter := reached (fun count after _ ran => safe count after ran) count after ran
    exact (callSafe_iff readyAfter).mp (safe count after ran)
  · intro fits count after ran
    have readyAfter := reached
      (fun count after isReady ran => (callSafe_iff isReady).mpr (fits count after ran)) count after
      ran
    exact (callSafe_iff readyAfter).mpr (fits count after ran)

end Calls

section Queries

variable {config} {tkObj : TokenObj}

theorem inputStr_whichOf {first second : TokenObj → Match}
    (firstKeeps : ∀ tkObj after, first tkObj = .yes after → after.inputStr = tkObj.inputStr)
    (secondKeeps : ∀ tkObj after, second tkObj = .yes after → after.inputStr = tkObj.inputStr) :
    (whichOf tkObj first second).1.inputStr = tkObj.inputStr := by
  rw [whichOf]
  split
  · rename_i found isFound
    exact firstKeeps tkObj found isFound
  · split
    · rename_i found isFound
      exact secondKeeps tkObj found isFound
    · rfl

theorem inputStr_single {p : Prop} [Decidable p] {operator : Operator} {after : TokenObj}
    (found : (if p then Match.yes (tkObj.single operator) else .no) = .yes after) :
    after.inputStr = tkObj.inputStr := by
  split at found
  · cases found
    rfl
  · cases found

theorem inputStr_beginPhrase {after : TokenObj}
    (found : isOpBEGIN_PHRASE config tkObj = .yes after) : after.inputStr = tkObj.inputStr := by
  rw [isOpBEGIN_PHRASE] at found
  repeat' split at found
  all_goals
    cases found
    try rfl

theorem inputStr_endPhrase {after : TokenObj}
    (found : isOpEND_PHRASE config tkObj = .yes after) : after.inputStr = tkObj.inputStr := by
  rw [isOpEND_PHRASE] at found
  repeat' split at found
  all_goals
    cases found
    try rfl

theorem inputStr_naturals :
    (whichOf tkObj isNaturalBegin isNaturalEnd).1.inputStr = tkObj.inputStr :=
  inputStr_whichOf (fun _ _ => inputStr_single) (fun _ _ => inputStr_single)

theorem inputStr_parens :
    (whichOf tkObj isOpBEGIN_PAREN isOpEND_PAREN).1.inputStr = tkObj.inputStr :=
  inputStr_whichOf (fun _ _ => inputStr_single) (fun _ _ => inputStr_single)

theorem inputStr_phrases :
    (whichOf tkObj (isOpBEGIN_PHRASE config) (isOpEND_PHRASE config)).1.inputStr =
      tkObj.inputStr :=
  inputStr_whichOf (fun _ _ => inputStr_beginPhrase) (fun _ _ => inputStr_endPhrase)

theorem inputStr_pairStep (pairs : Pairs) :
    (pairStep config tkObj pairs).1.inputStr = tkObj.inputStr :=
  calc (pairStep config tkObj pairs).1.inputStr
      = (whichOf (whichOf tkObj (isOpBEGIN_PHRASE config) (isOpEND_PHRASE config)).1
          isNaturalBegin isNaturalEnd).1.inputStr := inputStr_parens
    _ = (whichOf tkObj (isOpBEGIN_PHRASE config) (isOpEND_PHRASE config)).1.inputStr :=
        inputStr_naturals
    _ = tkObj.inputStr := inputStr_phrases

theorem inputStr_pairLoop (count : Nat) (pairs : Pairs) :
    (pairLoop config count tkObj pairs).1.inputStr = tkObj.inputStr := by
  induction count generalizing tkObj pairs with
  | zero => rfl
  | succ count ih =>
    have step := @inputStr_pairStep config tkObj pairs
    rw [pairLoop]
    generalize pairStep config tkObj pairs = result at step
    exact (ih _).trans step

def InBuffer (text : Text) : Prop := text.length < maxInputstrLen ∧ 0 ∉ text

theorem inBuffer_blank {first second : UInt8} {text : Text} (inBuffer : InBuffer text) :
    InBuffer (blank first second text) := by
  refine ⟨?_, fun member => ?_⟩
  · rw [blank, List.length_map]
    exact inBuffer.1
  · obtain ⟨char, isIn, isNull⟩ := List.mem_map.mp member
    split at isNull
    · exact absurd isNull (by decide)
    · exact inBuffer.2 (isNull ▸ isIn)

theorem inBuffer_ite {p : Prop} [Decidable p] {first second : Text} (one : InBuffer first)
    (other : InBuffer second) : InBuffer (if p then first else second) := by
  split
  · exact one
  · exact other

theorem ready_tkSetString (config : Config) (tkObj : TokenObj) (theString : Text) :
    Ready (tkSetString config tkObj theString) := by
  have short : InBuffer ((cString theString).take (maxInputstrLen - 1)) := by
    refine ⟨?_, fun member => ?_⟩
    · rw [List.length_take]
      simp only [maxInputstrLen]
      omega
    · have notNull := List.mem_takeWhile_imp (List.mem_of_mem_take member)
      simp at notNull
  apply ready_skip
  have kept : InBuffer (pairMatchingProcess config
      { tkObj with inputStr := (cString theString).take (maxInputstrLen - 1), idx := 0 }).inputStr := by
    simp only [pairMatchingProcess]
    have looped := @inputStr_pairLoop config
      { tkObj with
        inputStr := (cString theString).take (maxInputstrLen - 1), idx := 0,
        isBeginPhraseTurn := true, isPositionWithinPhrase := false }
      ((cString theString).take (maxInputstrLen - 1)).length ⟨0, 0, 0, 0, 0, 0, true, true⟩
    rw [looped]
    repeat' first
      | exact short
      | apply inBuffer_blank
      | apply inBuffer_ite
  exact ⟨kept.1, kept.2, Nat.zero_le _⟩

end Queries

/-- The list after the characters of a configuration, from the first to the last. -/
def addStopChars : StopChars → List UInt8 → Option StopChars
  | list, [] => some list
  | list, char :: rest =>
    match addStopChar list char with
    | none => none
    | some list => addStopChars list rest

structure Ended (list : StopChars) : Prop where
  first : list.chars.toList.take 7 = defaultStopChars ++ [0]
  behind : 8 ≤ list.num

section StopCharLists

theorem ended_initial : Ended StopChars.initial := ⟨by decide +kernel, by decide⟩

theorem text_of_ended {list : StopChars} (ended : Ended list) : list.text = defaultStopChars := by
  rw [StopChars.text, ← List.take_append_drop 7 list.chars.toList, ended.first]
  rfl

theorem addStopChar_of_free {list : StopChars} {char : UInt8} (free : list.num + 1 < 256)
    (ended : Ended list) :
    ∃ next, addStopChar list char = some next ∧ Ended next ∧ next.num = list.num + 1 := by
  rw [addStopChar, dif_pos (by omega)]
  simp only [dif_pos free]
  refine ⟨_, rfl, ⟨?_, ?_⟩, rfl⟩
  · have behind := ended.behind
    simp only [Vector.toList_set]
    rw [List.take_set_of_le (by omega), List.take_set_of_le (by omega)]
    exact ended.first
  · exact Nat.le_succ_of_le ended.behind

theorem addStopChar_of_last {list : StopChars} {char : UInt8} (last : list.num = 255) :
    addStopChar list char = none := by
  rw [addStopChar, dif_pos (by omega)]
  simp only
  rw [dif_neg (by omega)]

theorem addStopChars_spec {list : StopChars} (ended : Ended list) (room : list.num ≤ 255)
    (chars : List UInt8) :
    (list.num + chars.length ≤ 255 ∧ ∃ next, addStopChars list chars = some next ∧ Ended next) ∨
      (255 < list.num + chars.length ∧ addStopChars list chars = none) := by
  induction chars generalizing list with
  | nil => exact .inl ⟨room, list, rfl, ended⟩
  | cons char rest ih =>
    rw [addStopChars]
    rcases Nat.lt_or_ge (list.num + 1) 256 with free | full
    · obtain ⟨next, added, nextEnded, counted⟩ := @addStopChar_of_free _ char free ended
      rw [added]
      have others := ih nextEnded (by omega)
      rw [counted, Nat.add_assoc, Nat.add_comm 1] at others
      exact others
    · rw [addStopChar_of_last (by omega)]
      refine .inr ⟨?_, rfl⟩
      simp only [List.length_cons]
      omega

end StopCharLists

def IsMark (char : UInt8) : Prop :=
  char = config.opBeginPhrase ∨ char = config.opEndPhrase ∨ char = opNaturalBegin ∨
    char = opNaturalEnd ∨ char ∈ defaultStopChars

theorem isStopChar_iff {list : StopChars} (ended : Ended list) (tkObj : TokenObj) (char : UInt8)
    (outside : tkObj.isPositionWithinPhrase = false) :
    isStopChar { config with stopChars := list } tkObj char = true ↔ IsMark config char := by
  have begParen : opBeginParen ∈ defaultStopChars := by decide
  have endParen : opEndParen ∈ defaultStopChars := by decide
  simp only [isStopChar, outside, Bool.false_eq_true, if_false, decide_eq_true_eq,
    text_of_ended ended, IsMark]
  constructor
  · rintro (rfl | rfl | others)
    · exact .inr (.inr (.inr (.inr begParen)))
    · exact .inr (.inr (.inr (.inr endParen)))
    · exact others
  · exact fun others => .inr (.inr others)

/-- The tokenizer keeps to its buffers and its query in each call, and the list of
stop characters holds what has been added to it. -/
def TokenizerSafe (chars : List UInt8) (tkObj : TokenObj) (theString : Text) (node : QueryNode) :
    Prop :=
  ∃ list, addStopChars StopChars.initial chars = some list ∧
    (∀ char ∈ chars, ∀ tkObj : TokenObj, tkObj.isPositionWithinPhrase = false →
      isStopChar { config with stopChars := list } tkObj char = true) ∧
    ∀ count after,
      afterCalls { config with stopChars := list } node count
        (tkSetString { config with stopChars := list } tkObj theString) = some after →
      CallSafe { config with stopChars := list } after node

/-- Each token that is come to fits, and the characters added are few and have been
stop characters before. -/
def TokenizerFits (chars : List UInt8) (tkObj : TokenObj) (theString : Text) (node : QueryNode) :
    Prop :=
  chars.length ≤ 247 ∧ (∀ char ∈ chars, IsMark config char) ∧
    ∀ list, addStopChars StopChars.initial chars = some list →
      ∀ count after,
        afterCalls { config with stopChars := list } node count
          (tkSetString { config with stopChars := list } tkObj theString) = some after →
        (skipUselessChars after).src = [] ∨
          NextFits { config with stopChars := list } (skipUselessChars after)

theorem tokenizer_safe_iff (config : Config) (chars : List UInt8) (tkObj : TokenObj)
    (theString : Text) (node : QueryNode) :
    TokenizerSafe config chars tkObj theString node ↔
      TokenizerFits config chars tkObj theString node := by
  have initial : StopChars.initial.num = 8 := rfl
  rcases addStopChars_spec ended_initial (by decide) chars with
    ⟨few, list, added, ended⟩ | ⟨many, overrun⟩
  · have calls := @calls_safe_iff { config with stopChars := list } _ node
      (ready_tkSetString { config with stopChars := list } tkObj theString)
    have marks : (∀ char ∈ chars, ∀ tkObj : TokenObj, tkObj.isPositionWithinPhrase = false →
        isStopChar { config with stopChars := list } tkObj char = true) ↔
        ∀ char ∈ chars, IsMark config char := by
      constructor
      · intro stops char member
        let outside := { tkObj with isPositionWithinPhrase := false }
        exact (isStopChar_iff config ended outside char rfl).mp (stops char member outside rfl)
      · intro isMark char member other isOutside
        exact (isStopChar_iff config ended other char isOutside).mpr (isMark char member)
    constructor
    · rintro ⟨other, alsoAdded, stops, safe⟩
      obtain rfl := Option.some.inj (added.symm.trans alsoAdded)
      refine ⟨by omega, marks.mp stops, fun other alsoAdded => ?_⟩
      obtain rfl := Option.some.inj (added.symm.trans alsoAdded)
      exact calls.mp safe
    · rintro ⟨_, isMark, fits⟩
      exact ⟨list, added, marks.mpr isMark, calls.mpr (fits list added)⟩
  · constructor
    · rintro ⟨list, added, _⟩
      rw [overrun] at added
      cases added
    · rintro ⟨few, _⟩
      omega

/-- A comma that is added stands behind the end of the list. -/
theorem tokenizer_comma :
    ¬ TokenizerSafe allFields [44] (query "") (ascii "cats,dogs") ⟨.operand, 0, 0, []⟩ := by
  rintro ⟨list, added, stops, _⟩
  have ended : Ended list := by
    rcases addStopChars_spec ended_initial (by decide) [44] with
      ⟨_, other, alsoAdded, ended⟩ | ⟨many, _⟩
    · rw [Option.some.inj (added.symm.trans alsoAdded)]
      exact ended
    · exact absurd many (by decide)
  have isMark := (isStopChar_iff allFields ended (query "") 44 rfl).mp
    (stops 44 List.mem_cons_self (query "") rfl)
  revert isMark
  simp only [IsMark]
  decide

end Wisebot.Tokenizer
