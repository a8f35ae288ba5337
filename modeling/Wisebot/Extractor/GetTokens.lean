import Mathlib.Algebra.Ring.Nat
import Mathlib.Data.List.Basic

namespace Wisebot.Extractor.GetTokens

/-! The tokens of a document: `get_tokens` of `mod_tokenizer.c`. A text is its bytes before the
NUL, and `current` is what is left of it. -/

/-- `MAX_WORD_LEN` -/
def maxWordLen : Nat := 40

def maxAlphabetLen : Nat := 20

def maxNumberLen : Nat := 10

def maxSpecialcharLen : Nat := 4

def between (low high : Nat) (c : UInt8) : Bool := low ≤ c.toNat && c.toNat ≤ high

def isWhite (c : UInt8) : Bool :=
  c.toNat = 32 || c.toNat = 9 || c.toNat = 13 || c.toNat = 10

def isComma (c : UInt8) : Bool := c.toNat = 44

def isKorean : UInt8 → Bool := between 0xb0 0xc8

def isChinese : UInt8 → Bool := between 0xca 0xfd

def isJapanese (c : UInt8) : Bool := c.toNat = 0xaa || c.toNat = 0xab

def isAlphabet (c : UInt8) : Bool := between 97 122 c || between 65 90 c

def isNumber : UInt8 → Bool := between 48 57

/-- The characters that `special_char_table` has a 1 for, among them the comma. -/
def isSpecialChar (c : UInt8) : Bool :=
  between 0x21 0x2f c || between 0x3a 0x40 c || between 0x5b 0x60 c || between 0x7b 0x7e c

inductive TokenType where
  | korean
  | chinese
  | japanese
  | alphabet
  | number
  | specialChar
  | endOfWord
  | endOfDocument
deriving DecidableEq

/-- A token; its `len` is the length of the string. -/
structure Token where
  type : TokenType
  string : List UInt8
deriving DecidableEq

/-- `"#STATUS_TOKEN:0x"` -/
def statusText : List UInt8 :=
  [35, 83, 84, 65, 84, 85, 83, 95, 84, 79, 75, 69, 78, 58, 48, 120]

/-- `TOKEN_END_OF_WORD` is `0x10`. -/
def endOfWord : Token := ⟨.endOfWord, statusText ++ [49, 48]⟩

/-- `TOKEN_END_OF_DOCUMENT` is `0x40`. -/
def endOfDocument : Token := ⟨.endOfDocument, statusText ++ [52, 48]⟩

/-- The loops of `add_token` over characters of two bytes, with the bytes that are copied and
what is left. -/
def wideLoop (isLead : UInt8 → Bool) : (i : Nat) → List UInt8 → List UInt8 × List UInt8
  | _, [] => ([], [])
  | _, [c] => if isLead c then ([], []) else ([], [c])
  | i, c :: trail :: rest =>
    if isLead c then
      if maxWordLen ≤ i + 1 ∨ maxWordLen ≤ i + 2 then ([], c :: trail :: rest)
      else
        let copied := wideLoop isLead (i + 2) rest
        (c :: trail :: copied.1, copied.2)
    else ([], c :: trail :: rest)

def narrowLoop (isClass : UInt8 → Bool) (maxLen : Nat) :
    (i : Nat) → List UInt8 → List UInt8 × List UInt8
  | _, [] => ([], [])
  | i, c :: rest =>
    if isClass c then
      if maxLen ≤ i ∨ maxWordLen ≤ i + 1 then ([], c :: rest)
      else
        let copied := narrowLoop isClass maxLen (i + 1) rest
        (c :: copied.1, copied.2)
    else ([], c :: rest)

def counted (type : TokenType) (copied : List UInt8 × List UInt8) : Option Token × List UInt8 :=
  (if copied.1 = [] then none else some ⟨type, copied.1⟩, copied.2)

def addToken (c : UInt8) (rest : List UInt8) : Option Token × List UInt8 :=
  if isKorean c then counted .korean (wideLoop isKorean 0 (c :: rest))
  else if isChinese c then counted .chinese (wideLoop isChinese 0 (c :: rest))
  else if isJapanese c then counted .japanese (wideLoop isJapanese 0 (c :: rest))
  else if isAlphabet c then
    counted .alphabet (narrowLoop isAlphabet maxAlphabetLen 0 (c :: rest))
  else if isNumber c then counted .number (narrowLoop isNumber maxNumberLen 0 (c :: rest))
  else if isSpecialChar c then
    counted .specialChar (narrowLoop isSpecialChar maxSpecialcharLen 0 (c :: rest))
  else if rest ≠ [] ∧ 0x80 ≤ c.toNat then (none, rest.tail)
  else (none, rest)

def isBlank (c : UInt8) : Bool := isWhite c || isComma c

/-- What a round of the loop adds, and where it leaves `current`. -/
def nextToken (c : UInt8) (rest : List UInt8) : Option Token × List UInt8 :=
  if isBlank c then (some endOfWord, rest.dropWhile isBlank) else addToken c rest

def tokenLoop (maxtokens : Nat) :
    (rounds idx : Nat) → (current : List UInt8) → Option (List Token × List UInt8)
  | 0, _, _ => none
  | rounds + 1, idx, current =>
    if maxtokens ≤ idx then some ([], current)
    else
      match current with
      | [] => some ([endOfDocument], [])
      | c :: rest =>
        match (nextToken c rest).1 with
        | none => tokenLoop maxtokens rounds idx (nextToken c rest).2
        | some token =>
          (tokenLoop maxtokens rounds (idx + 1) (nextToken c rest).2).map fun later =>
            (token :: later.1, later.2)

def getTokens (maxtokens : Nat) (current : List UInt8) : Option (List Token × List UInt8) :=
  tokenLoop maxtokens (current.length + 1) 0 current

/-- The tokens of calls up to the first `TOKEN_END_OF_DOCUMENT`. -/
def documentTokens (maxtokens : Nat) : (calls : Nat) → List UInt8 → Option (List Token)
  | 0, _ => none
  | calls + 1, current =>
    (getTokens maxtokens current).bind fun answer =>
      if endOfDocument ∈ answer.1 then some answer.1
      else (documentTokens maxtokens calls answer.2).map (answer.1 ++ ·)

def isWide (c : UInt8) : Bool := isKorean c || isChinese c || isJapanese c

def isNarrow (c : UInt8) : Bool := isAlphabet c || isNumber c || isSpecialChar c

inductive Piece where
  | blank (byte : UInt8)
  | wide (lead trail : UInt8)
  | narrow (byte : UInt8)
  | unknown

/-- The characters of a text, a trailing half of one as an unknown one. -/
def pieces : List UInt8 → List Piece
  | [] => []
  | [c] => if isBlank c then [.blank c] else if isNarrow c then [.narrow c] else [.unknown]
  | c :: next :: rest =>
    if isBlank c then .blank c :: pieces (next :: rest)
    else if isWide c then .wide c next :: pieces rest
    else if isNarrow c then .narrow c :: pieces (next :: rest)
    else if 0x80 ≤ c.toNat then .unknown :: pieces rest
    else .unknown :: pieces (next :: rest)

/-- The bytes that are to be in the tokens, with a mark for each run of white space and
commas. -/
def outline : (afterBlank : Bool) → List Piece → List (Option UInt8)
  | _, [] => []
  | true, .blank _ :: more => outline true more
  | false, .blank _ :: more => none :: outline true more
  | _, .wide lead trail :: more => some lead :: some trail :: outline false more
  | _, .narrow byte :: more => some byte :: outline false more
  | _, .unknown :: more => outline false more

/-- What a token adds to the text. -/
def Token.outline (token : Token) : List (Option UInt8) :=
  match token.type with
  | .endOfDocument => []
  | .endOfWord => [none]
  | _ => token.string.map some

/-- The special characters directly before a comma are a multiple of four; `run` is how many
there are before the text, modulo four. -/
def Separated : (run : Nat) → List Piece → Prop
  | _, [] => True
  | run, .blank byte :: more => (isComma byte = true → run = 0) ∧ Separated 0 more
  | _, .wide _ _ :: more => Separated 0 more
  | run, .narrow byte :: more =>
    Separated (if isSpecialChar byte then (run + 1) % maxSpecialcharLen else 0) more
  | _, .unknown :: more => Separated 0 more

def WideOf (isLead : UInt8 → Bool) (string : List UInt8) : Prop :=
  ∃ chars : List (UInt8 × UInt8), (∀ char ∈ chars, isLead char.1 = true) ∧
    string = chars.flatMap fun char => [char.1, char.2]

def OfClass (token : Token) : Prop :=
  match token.type with
  | .korean => WideOf isKorean token.string
  | .chinese => WideOf isChinese token.string
  | .japanese => WideOf isJapanese token.string
  | .alphabet => ∀ byte ∈ token.string, isAlphabet byte = true
  | .number => ∀ byte ∈ token.string, isNumber byte = true
  | .specialChar => ∀ byte ∈ token.string, isSpecialChar byte = true
  | .endOfWord => token = endOfWord
  | .endOfDocument => token = endOfDocument

/-- What is copied is what the characters up to the rest of the text show. -/
def Covers (text : List UInt8) (copied : List UInt8 × List UInt8) : Prop :=
  outline false (pieces text) = copied.1.map some ++ outline false (pieces copied.2) ∧
    (Separated 0 (pieces text) ↔ Separated 0 (pieces copied.2))

theorem Covers.refl (text : List UInt8) : Covers text ([], text) := ⟨rfl, Iff.rfl⟩

theorem pieces_blank {c : UInt8} (blank : isBlank c = true) (rest : List UInt8) :
    pieces (c :: rest) = .blank c :: pieces rest := by
  cases rest with
  | nil => exact if_pos blank
  | cons next rest =>
    rw [pieces]
    exact if_pos blank

theorem pieces_wide {c : UInt8} (notBlank : isBlank c = false) (wide : isWide c = true)
    (trail : UInt8) (rest : List UInt8) :
    pieces (c :: trail :: rest) = .wide c trail :: pieces rest := by
  simp [pieces, notBlank, wide]

theorem pieces_narrow {c : UInt8} (notBlank : isBlank c = false) (notWide : isWide c = false)
    (narrow : isNarrow c = true) (rest : List UInt8) :
    pieces (c :: rest) = .narrow c :: pieces rest := by
  cases rest <;> simp [pieces, notBlank, notWide, narrow]

section Wide

variable {isLead : UInt8 → Bool}

theorem wideLoop_covers
    (isClass : ∀ c, isLead c = true →
      isBlank c = false ∧ isWide c = true ∧ isNarrow c = false)
    (i : Nat) (text : List UInt8) : Covers text (wideLoop isLead i text) := by
  fun_induction wideLoop isLead i text with
  | case1 => exact .refl _
  | case2 i c lead =>
    obtain ⟨notBlank, _, notNarrow⟩ := isClass c lead
    simp [Covers, pieces, notBlank, notNarrow, outline, Separated]
  | case3 => exact .refl _
  | case4 => exact .refl _
  | case5 i c trail rest lead inside copied ih =>
    obtain ⟨notBlank, wide, _⟩ := isClass c lead
    rw [Covers, pieces_wide notBlank wide, outline, Separated, ih.1, ih.2]
    exact ⟨rfl, Iff.rfl⟩
  | case6 => exact .refl _

theorem wideLoop_spec (i : Nat) (text : List UInt8) (inside : i < maxWordLen) :
    (wideLoop isLead i text).2.length ≤ text.length ∧
      i + (wideLoop isLead i text).1.length < maxWordLen ∧
      WideOf isLead (wideLoop isLead i text).1 := by
  fun_induction wideLoop isLead i text with
  | case1 => exact ⟨Nat.le_refl _, inside, [], by simp, rfl⟩
  | case2 => exact ⟨Nat.zero_le _, inside, [], by simp, rfl⟩
  | case3 => exact ⟨Nat.le_refl _, inside, [], by simp, rfl⟩
  | case4 => exact ⟨Nat.le_refl _, inside, [], by simp, rfl⟩
  | case5 i c trail rest lead hasRoom copied ih =>
    obtain ⟨shorter, short, chars, allLead, isString⟩ := ih (by omega)
    refine ⟨?_, ?_, (c, trail) :: chars, ?_, ?_⟩
    · change (wideLoop isLead (i + 2) rest).2.length ≤ rest.length + 1 + 1
      omega
    · change i + ((wideLoop isLead (i + 2) rest).1.length + 1 + 1) < maxWordLen
      omega
    · intro char isIn
      rcases List.mem_cons.mp isIn with rfl | isIn
      · exact lead
      · exact allLead char isIn
    · rw [List.flatMap_cons, ← isString]
      rfl
  | case6 => exact ⟨Nat.le_refl _, inside, [], by simp, rfl⟩

end Wide

section Narrow

variable {isClass : UInt8 → Bool} {maxLen : Nat}

theorem narrowLoop_covers
    (isPlain : ∀ c, isClass c = true →
      isBlank c = false ∧ isWide c = false ∧ isNarrow c = true ∧ isSpecialChar c = false)
    (i : Nat) (text : List UInt8) : Covers text (narrowLoop isClass maxLen i text) := by
  fun_induction narrowLoop isClass maxLen i text with
  | case1 => exact .refl _
  | case2 => exact .refl _
  | case3 i c rest ofClass inside copied ih =>
    obtain ⟨notBlank, notWide, narrow, plain⟩ := isPlain c ofClass
    rw [Covers, pieces_narrow notBlank notWide narrow, outline, Separated, plain, ih.1, ← ih.2]
    exact ⟨rfl, Iff.rfl⟩
  | case4 => exact .refl _

theorem narrowLoop_spec (i : Nat) (text : List UInt8) (inside : i < maxWordLen) :
    (narrowLoop isClass maxLen i text).2.length ≤ text.length ∧
      i + (narrowLoop isClass maxLen i text).1.length < maxWordLen ∧
      ∀ byte ∈ (narrowLoop isClass maxLen i text).1, isClass byte = true := by
  fun_induction narrowLoop isClass maxLen i text with
  | case1 => exact ⟨Nat.le_refl _, inside, by simp⟩
  | case2 => exact ⟨Nat.le_refl _, inside, by simp⟩
  | case3 i c rest ofClass hasRoom copied ih =>
    obtain ⟨shorter, short, allClass⟩ := ih (by omega)
    refine ⟨?_, ?_, ?_⟩
    · change (narrowLoop isClass maxLen (i + 1) rest).2.length ≤ rest.length + 1
      omega
    · change i + ((narrowLoop isClass maxLen (i + 1) rest).1.length + 1) < maxWordLen
      omega
    · intro byte isIn
      rcases List.mem_cons.mp isIn with rfl | isIn
      · exact ofClass
      · exact allClass byte isIn
  | case4 => exact ⟨Nat.le_refl _, inside, by simp⟩

end Narrow

theorem isSpecialChar_of_isComma {c : UInt8} (comma : isComma c = true) :
    isSpecialChar c = true := by
  simp only [isComma, decide_eq_true_eq] at comma
  simp [isSpecialChar, between, comma]

theorem isSpecialChar_plain {c : UInt8} (special : isSpecialChar c = true)
    (notComma : isComma c = false) :
    isBlank c = false ∧ isWide c = false ∧ isNarrow c = true := by
  refine ⟨?_, ?_, by simp [isNarrow, special]⟩
  · simp only [isSpecialChar, between, Bool.or_eq_true, Bool.and_eq_true,
      decide_eq_true_eq] at special
    simp only [isBlank, notComma, isWhite, Bool.or_false, Bool.or_eq_false_iff,
      decide_eq_false_iff_not]
    omega
  · simp only [isSpecialChar, between, Bool.or_eq_true, Bool.and_eq_true,
      decide_eq_true_eq] at special
    simp only [isWide, isKorean, isChinese, isJapanese, between, Bool.or_eq_false_iff,
      Bool.and_eq_false_iff, decide_eq_false_iff_not]
    omega

theorem separated_start {c : UInt8} (notSpecial : isSpecialChar c = false) (run : Nat)
    (rest : List UInt8) :
    Separated run (pieces (c :: rest)) ↔ Separated 0 (pieces (c :: rest)) := by
  have notComma : isComma c = false := by
    rw [← Bool.not_eq_true]
    intro comma
    rw [isSpecialChar_of_isComma comma] at notSpecial
    cases notSpecial
  cases rest with
  | nil =>
    rw [pieces]
    split
    · simp [Separated, notComma]
    · split <;> simp [Separated]
  | cons next rest =>
    rw [pieces]
    split
    · simp [Separated, notComma]
    · split
      · simp [Separated]
      · split
        · simp [Separated, notSpecial]
        · split <;> simp [Separated]

theorem specialLoop_covers (i : Nat) (text : List UInt8) (inside : i ≤ maxSpecialcharLen)
    (first : 0 < i ∨ ∀ c ∈ text.head?, isComma c = false) :
    (outline false (pieces text) =
        (narrowLoop isSpecialChar maxSpecialcharLen i text).1.map some ++
          outline false (pieces (narrowLoop isSpecialChar maxSpecialcharLen i text).2) ∧
      (Separated (i % maxSpecialcharLen) (pieces text) ↔
        Separated 0 (pieces (narrowLoop isSpecialChar maxSpecialcharLen i text).2))) ∨
    (¬ Separated (i % maxSpecialcharLen) (pieces text) ∧
      ∀ others, (narrowLoop isSpecialChar maxSpecialcharLen i text).1.map some ++ others ≠
        outline false (pieces text)) := by
  have isMax : maxSpecialcharLen = 4 := rfl
  have isLen : maxWordLen = 40 := rfl
  fun_induction narrowLoop isSpecialChar maxSpecialcharLen i text with
  | case1 i => exact .inl ⟨rfl, by simp [pieces, Separated]⟩
  | case2 i c rest special isFull =>
    obtain rfl : i = 4 := by omega
    exact .inl ⟨rfl, Iff.rfl⟩
  | case3 i c rest special hasRoom copied ih =>
    cases comma : isComma c with
    | true =>
      have positive : 0 < i := first.resolve_right fun never => by
        rw [never c rfl] at comma
        cases comma
      have blank : isBlank c = true := by simp [isBlank, comma]
      rw [pieces_blank blank, outline]
      refine .inr ⟨fun separated => ?_, fun others same => ?_⟩
      · have isZero := separated.1 comma
        rw [isMax] at isZero
        omega
      · cases same
    | false =>
      obtain ⟨notBlank, notWide, narrow⟩ := isSpecialChar_plain special comma
      have isRun : (i % maxSpecialcharLen + 1) % maxSpecialcharLen =
          (i + 1) % maxSpecialcharLen := by
        rw [Nat.mod_add_mod]
      rw [pieces_narrow notBlank notWide narrow, outline, Separated, if_pos special, isRun]
      rcases ih (by omega) (.inl (Nat.succ_pos i)) with ⟨same, separated⟩ | ⟨notSeparated, differ⟩
      · rw [same]
        exact .inl ⟨rfl, separated⟩
      · refine .inr ⟨notSeparated, fun others same => ?_⟩
        exact differ others (List.cons.inj same).2
  | case4 i c rest notSpecial =>
    refine .inl ⟨rfl, separated_start ?_ _ rest⟩
    exact Bool.eq_false_iff.mpr notSpecial

section Token

variable {c : UInt8} {rest : List UInt8} {token : Token}

theorem wideLoop_progress {isLead : UInt8 → Bool} (lead : isLead c = true) :
    (wideLoop isLead 0 (c :: rest)).2.length ≤ rest.length := by
  cases rest with
  | nil => simp [wideLoop, lead]
  | cons trail rest =>
    have shorter := (@wideLoop_spec isLead 2 rest (by decide)).1
    rw [wideLoop, if_pos lead, if_neg (by decide), List.length_cons]
    exact Nat.le_trans shorter (Nat.le_succ _)

theorem narrowLoop_progress {isClass : UInt8 → Bool} {maxLen : Nat} (ofClass : isClass c = true)
    (positive : 0 < maxLen) :
    (narrowLoop isClass maxLen 0 (c :: rest)).2.length ≤ rest.length := by
  have hasRoom : ¬ (maxLen ≤ 0 ∨ maxWordLen ≤ 0 + 1) := by
    rw [maxWordLen]
    omega
  rw [narrowLoop, if_pos ofClass, if_neg hasRoom]
  exact (narrowLoop_spec 1 rest (by decide)).1

/-- A token as it is to be. -/
def Proper (token : Token) : Prop :=
  token.string ≠ [] ∧ token.string.length < maxWordLen ∧ OfClass token

theorem counted_some {type : TokenType} {copied : List UInt8 × List UInt8}
    (isToken : (counted type copied).1 = some token) :
    copied.1 ≠ [] ∧ token = ⟨type, copied.1⟩ := by
  rw [counted] at isToken
  split at isToken
  case isTrue => cases isToken
  case isFalse notEmpty => exact ⟨notEmpty, (Option.some.inj isToken).symm⟩

/-- What is taken for a token, and what is left behind it, are the characters of the text; or
a comma was taken, which is to be a mark. -/
def Shows (text : List UInt8) (shown : List (Option UInt8)) (rest : List UInt8) : Prop :=
  (outline false (pieces text) = shown ++ outline false (pieces rest) ∧
    (Separated 0 (pieces text) ↔ Separated 0 (pieces rest))) ∨
  (¬ Separated 0 (pieces text) ∧ ∀ others, shown ++ others ≠ outline false (pieces text))

def IsWord (type : TokenType) : Prop := type ≠ .endOfWord ∧ type ≠ .endOfDocument

theorem counted_outline {type : TokenType} (isWord : IsWord type)
    (copied : List UInt8 × List UInt8) :
    (counted type copied).1.toList.flatMap Token.outline = copied.1.map some := by
  rw [counted]
  by_cases isEmpty : copied.1 = []
  · rw [if_pos isEmpty, isEmpty]
    rfl
  · rw [if_neg isEmpty, Option.toList_some, List.flatMap_singleton, Token.outline]
    cases type
    case endOfWord => exact absurd rfl isWord.1
    case endOfDocument => exact absurd rfl isWord.2
    all_goals rfl

theorem Covers.shows {text : List UInt8} {copied : List UInt8 × List UInt8}
    (covers : Covers text copied) {type : TokenType} (isWord : IsWord type) :
    Shows text ((counted type copied).1.toList.flatMap Token.outline) (counted type copied).2 := by
  rw [counted_outline isWord]
  exact .inl covers

theorem wide_spec (wide : isWide c = true) : isBlank c = false ∧ isNarrow c = false := by
  simp only [isWide, isKorean, isChinese, isJapanese, between, Bool.or_eq_true, Bool.and_eq_true,
    decide_eq_true_eq] at wide
  simp only [isBlank, isComma, isWhite, isNarrow, isAlphabet, isNumber, isSpecialChar, between,
    Bool.or_eq_false_iff, Bool.and_eq_false_iff, decide_eq_false_iff_not]
  omega

theorem plain_spec (plain : (isAlphabet c || isNumber c) = true) :
    isBlank c = false ∧ isWide c = false ∧ isSpecialChar c = false := by
  simp only [isAlphabet, isNumber, between, Bool.or_eq_true, Bool.and_eq_true,
    decide_eq_true_eq] at plain
  simp only [isBlank, isComma, isWhite, isWide, isKorean, isChinese, isJapanese, isSpecialChar,
    between, Bool.or_eq_false_iff, Bool.and_eq_false_iff, decide_eq_false_iff_not]
  omega

/-- The type of tokens of characters of two bytes, with their first bytes. -/
def WideType (type : TokenType) (isLead : UInt8 → Bool) : Prop :=
  (∀ c, isLead c = true → isWide c = true) ∧
    ∀ string, WideOf isLead string → OfClass ⟨type, string⟩

def NarrowType (type : TokenType) (isClass : UInt8 → Bool) : Prop :=
  ∀ string, (∀ byte ∈ string, isClass byte = true) → OfClass ⟨type, string⟩

theorem addToken_cases (c : UInt8) (rest : List UInt8) :
    (∃ type isLead, IsWord type ∧ WideType type isLead ∧ isLead c = true ∧
      addToken c rest = counted type (wideLoop isLead 0 (c :: rest))) ∨
    (∃ type isClass maxLen, IsWord type ∧ NarrowType type isClass ∧ isClass c = true ∧
      0 < maxLen ∧ (∀ c, isClass c = true → (isAlphabet c || isNumber c) = true) ∧
      addToken c rest = counted type (narrowLoop isClass maxLen 0 (c :: rest))) ∨
    (isSpecialChar c = true ∧ addToken c rest =
      counted .specialChar (narrowLoop isSpecialChar maxSpecialcharLen 0 (c :: rest))) ∨
    (isWide c = false ∧ isNarrow c = false ∧ addToken c rest =
      (none, if rest ≠ [] ∧ 0x80 ≤ c.toNat then rest.tail else rest)) := by
  rw [addToken]
  split
  case isTrue lead =>
    exact .inl ⟨_, _, ⟨by decide, by decide⟩,
      ⟨fun c lead => by simp [isWide, lead], fun _ => id⟩, lead, rfl⟩
  case isFalse notKorean =>
    split
    case isTrue lead =>
      exact .inl ⟨_, _, ⟨by decide, by decide⟩,
        ⟨fun c lead => by simp [isWide, lead], fun _ => id⟩, lead, rfl⟩
    case isFalse notChinese =>
      split
      case isTrue lead =>
        exact .inl ⟨_, _, ⟨by decide, by decide⟩,
        ⟨fun c lead => by simp [isWide, lead], fun _ => id⟩, lead, rfl⟩
      case isFalse notJapanese =>
        split
        case isTrue ofClass =>
          exact .inr (.inl ⟨_, _, _, ⟨by decide, by decide⟩, fun _ => id, ofClass, by decide,
            fun c ofClass => by simp [ofClass], rfl⟩)
        case isFalse notAlphabet =>
          split
          case isTrue ofClass =>
            exact .inr (.inl ⟨_, _, _, ⟨by decide, by decide⟩, fun _ => id, ofClass, by decide,
              fun c ofClass => by simp [ofClass], rfl⟩)
          case isFalse notNumber =>
            split
            case isTrue special => exact .inr (.inr (.inl ⟨special, rfl⟩))
            case isFalse notSpecial =>
              refine .inr (.inr (.inr ⟨?_, ?_, ?_⟩))
              · simp [isWide, notKorean, notChinese, notJapanese]
              · simp [isNarrow, notAlphabet, notNumber, notSpecial]
              · split <;> rfl

theorem addToken_shows (notBlank : isBlank c = false) :
    Shows (c :: rest) ((addToken c rest).1.toList.flatMap Token.outline)
      (addToken c rest).2 := by
  rcases addToken_cases c rest with ⟨type, isLead, isWord, ⟨wide, _⟩, _, isToken⟩ |
    ⟨type, isClass, maxLen, isWord, _, _, _, plain, isToken⟩ | ⟨special, isToken⟩ |
    ⟨notWide, notNarrow, isToken⟩
  · rw [isToken]
    refine (wideLoop_covers (fun c lead => ?_) 0 _).shows isWord
    obtain ⟨solid, notNarrow⟩ := wide_spec (wide c lead)
    exact ⟨solid, wide c lead, notNarrow⟩
  · rw [isToken]
    refine (narrowLoop_covers (fun c ofClass => ?_) 0 _).shows isWord
    obtain ⟨solid, notWide, notSpecial⟩ := plain_spec (plain c ofClass)
    exact ⟨solid, notWide, by rw [isNarrow, plain c ofClass]; rfl, notSpecial⟩
  · have notComma : ∀ first ∈ (c :: rest).head?, isComma first = false := by
      rintro first ⟨⟩
      exact (Bool.or_eq_false_iff.mp notBlank).2
    rw [isToken, counted_outline ⟨by decide, by decide⟩]
    exact specialLoop_covers 0 _ (Nat.zero_le _) (.inr notComma)
  · rw [isToken]
    cases rest with
    | nil => simp [Shows, pieces, notBlank, notNarrow, outline, Separated]
    | cons next rest =>
      by_cases high : 0x80 ≤ c.toNat
      · simp [Shows, pieces, notBlank, notWide, notNarrow, high, outline, Separated]
      · simp [Shows, pieces, notBlank, notWide, notNarrow, high, outline, Separated]

theorem addToken_shorter : (addToken c rest).2.length ≤ rest.length := by
  rcases addToken_cases c rest with ⟨_, _, _, _, lead, isToken⟩ |
    ⟨_, _, _, _, _, ofClass, positive, _, isToken⟩ | ⟨special, isToken⟩ | ⟨_, _, isToken⟩
  · rw [isToken]
    exact wideLoop_progress lead
  · rw [isToken]
    exact narrowLoop_progress ofClass positive
  · rw [isToken]
    exact narrowLoop_progress special (by decide)
  · rw [isToken]
    dsimp only
    split
    · rw [List.length_tail]
      exact Nat.sub_le _ _
    · exact Nat.le_refl _

theorem counted_proper {type : TokenType} {copied : List UInt8 × List UInt8}
    (isToken : (counted type copied).1 = some token) (short : 0 + copied.1.length < maxWordLen)
    (ofClass : OfClass ⟨type, copied.1⟩) (isWord : IsWord type) :
    Proper token ∧ token ≠ endOfDocument := by
  obtain ⟨notEmpty, rfl⟩ := counted_some isToken
  rw [Nat.zero_add] at short
  exact ⟨⟨notEmpty, short, ofClass⟩, fun same => isWord.2 (congrArg Token.type same)⟩

theorem addToken_proper (counts : (addToken c rest).1 = some token) :
    Proper token ∧ token ≠ endOfDocument := by
  rcases addToken_cases c rest with ⟨type, isLead, isWord, ⟨_, ofType⟩, _, isToken⟩ |
    ⟨type, isClass, maxLen, isWord, ofType, _, _, _, isToken⟩ | ⟨_, isToken⟩ | ⟨_, _, isToken⟩
  · obtain ⟨-, short, ofClass⟩ := @wideLoop_spec isLead 0 (c :: rest) (by decide)
    rw [isToken] at counts
    exact counted_proper counts short (ofType _ ofClass) isWord
  · obtain ⟨-, short, ofClass⟩ := @narrowLoop_spec isClass maxLen 0 (c :: rest) (by decide)
    rw [isToken] at counts
    exact counted_proper counts short (ofType _ ofClass) isWord
  · obtain ⟨-, short, ofClass⟩ :=
      @narrowLoop_spec isSpecialChar maxSpecialcharLen 0 (c :: rest) (by decide)
    rw [isToken] at counts
    exact counted_proper counts short ofClass ⟨by decide, by decide⟩
  · rw [isToken] at counts
    cases counts

theorem nextToken_shorter : (nextToken c rest).2.length ≤ rest.length := by
  rw [nextToken]
  split
  · exact (List.dropWhile_suffix isBlank).length_le
  · exact addToken_shorter

theorem nextToken_proper (counts : (nextToken c rest).1 = some token) :
    Proper token ∧ token ≠ endOfDocument := by
  rw [nextToken] at counts
  split at counts
  · cases counts
    exact ⟨⟨by decide, by decide, rfl⟩, by decide⟩
  · exact addToken_proper counts

theorem outline_start (notBlank : isBlank c = false) :
    outline true (pieces (c :: rest)) = outline false (pieces (c :: rest)) := by
  cases rest with
  | nil =>
    rw [pieces, notBlank]
    cases narrow : isNarrow c <;> rfl
  | cons next rest =>
    rw [pieces, notBlank]
    cases wide : isWide c <;> cases narrow : isNarrow c <;>
      by_cases high : 0x80 ≤ c.toNat <;> simp [high, outline]

theorem dropWhile_shows (text : List UInt8) :
    outline true (pieces text) = outline false (pieces (text.dropWhile isBlank)) ∧
      (Separated 0 (pieces text) ↔ Separated 0 (pieces (text.dropWhile isBlank))) := by
  induction text with
  | nil => exact ⟨rfl, Iff.rfl⟩
  | cons c rest ih =>
    cases blank : isBlank c with
    | true =>
      rw [pieces_blank blank, outline, Separated, List.dropWhile_cons_of_pos blank]
      exact ⟨ih.1, (and_iff_right fun _ => rfl).trans ih.2⟩
    | false =>
      rw [List.dropWhile_cons_of_neg (by rw [blank]; decide)]
      exact ⟨outline_start blank, Iff.rfl⟩

theorem nextToken_shows :
    Shows (c :: rest) ((nextToken c rest).1.toList.flatMap Token.outline)
      (nextToken c rest).2 := by
  rw [nextToken]
  split
  case isTrue blank =>
    obtain ⟨isOutline, isSeparated⟩ := dropWhile_shows rest
    rw [Shows, pieces_blank blank, outline, Separated, isOutline, isSeparated]
    exact .inl ⟨rfl, and_iff_right fun _ => rfl⟩
  case isFalse solid => exact addToken_shows (Bool.eq_false_iff.mpr solid)

end Token

inductive Tokenizes : List UInt8 → List Token → Prop
  | done : Tokenizes [] [endOfDocument]
  | next {c : UInt8} {rest : List UInt8} {tokens : List Token}
      (others : Tokenizes (nextToken c rest).2 tokens) :
      Tokenizes (c :: rest) ((nextToken c rest).1.toList ++ tokens)

theorem exists_tokens (text : List UInt8) : ∃ tokens, Tokenizes text tokens := by
  generalize isLength : text.length = length
  induction length using Nat.strongRecOn generalizing text with
  | ind length ih =>
    cases text with
    | nil => exact ⟨_, .done⟩
    | cons c rest =>
      rw [List.length_cons] at isLength
      have shorter := @nextToken_shorter c rest
      obtain ⟨tokens, others⟩ := ih _ (by omega) (nextToken c rest).2 rfl
      exact ⟨_, .next others⟩

section Calls

variable {text : List UInt8} {tokens : List Token} {rounds maxtokens idx : Nat}

theorem Tokenizes.proper (tokenizes : Tokenizes text tokens) : ∀ token ∈ tokens, Proper token := by
  induction tokenizes with
  | done =>
    intro token isIn
    rw [List.mem_singleton.mp isIn]
    exact ⟨by decide, by decide, rfl⟩
  | next _ ih =>
    intro token isIn
    rcases List.mem_append.mp isIn with isIn | isIn
    · exact (nextToken_proper (Option.mem_toList.mp isIn)).1
    · exact ih token isIn

theorem Tokenizes.last (tokenizes : Tokenizes text tokens) :
    ∃ words, tokens = words ++ [endOfDocument] ∧ endOfDocument ∉ words := by
  induction tokenizes with
  | done => exact ⟨[], rfl, List.not_mem_nil⟩
  | next _ ih =>
    obtain ⟨words, rfl, notIn⟩ := ih
    refine ⟨_, (List.append_assoc _ _ _).symm, fun isIn => ?_⟩
    rcases List.mem_append.mp isIn with isIn | isIn
    · exact (nextToken_proper (Option.mem_toList.mp isIn)).2 rfl
    · exact notIn isIn

/-- What a call with room for `room` tokens gives, and what it leaves. -/
def Gives (text : List UInt8) (tokens : List Token) (room : Nat)
    (answer : Option (List Token × List UInt8)) : Prop :=
  (tokens.length ≤ room ∧ answer = some (tokens, [])) ∨
    (room < tokens.length ∧ ∃ rest, answer = some (tokens.take room, rest) ∧
      Tokenizes rest (tokens.drop room) ∧ rest.length ≤ text.length ∧
      (0 < room → rest.length < text.length))

theorem Tokenizes.gives_full (tokenizes : Tokenizes text tokens) (full : maxtokens ≤ idx) :
    Gives text tokens (maxtokens - idx) (tokenLoop maxtokens (rounds + 1) idx text) := by
  have isFull : tokenLoop maxtokens (rounds + 1) idx text = some ([], text) := by
    cases text with
    | nil => exact if_pos full
    | cons c rest => exact if_pos full
  obtain ⟨words, rfl, -⟩ := tokenizes.last
  rw [isFull, Nat.sub_eq_zero_of_le full]
  refine .inr ⟨?_, text, rfl, tokenizes, Nat.le_refl _, fun never => absurd never (Nat.lt_irrefl _)⟩
  rw [List.length_append]
  exact Nat.succ_pos _

theorem Tokenizes.gives (tokenizes : Tokenizes text tokens) (enough : text.length < rounds) :
    Gives text tokens (maxtokens - idx) (tokenLoop maxtokens rounds idx text) := by
  induction tokenizes generalizing rounds idx with
  | done =>
    obtain ⟨rounds, rfl⟩ := Nat.exists_eq_succ_of_ne_zero (Nat.ne_of_gt enough)
    rcases Nat.lt_or_ge idx maxtokens with inside | full
    · exact .inl ⟨Nat.sub_pos_of_lt inside, if_neg (Nat.not_le.mpr inside)⟩
    · exact Tokenizes.done.gives_full full
  | @next c rest tokens others ih =>
    obtain ⟨rounds, rfl⟩ := Nat.exists_eq_succ_of_ne_zero (Nat.ne_of_gt (Nat.zero_lt_of_lt enough))
    rcases Nat.lt_or_ge idx maxtokens with inside | full
    · have shorter : (nextToken c rest).2.length < (c :: rest).length :=
        Nat.lt_succ_of_le nextToken_shorter
      have enough := Nat.lt_of_lt_of_le shorter (Nat.le_of_lt_succ enough)
      rw [tokenLoop, if_neg (Nat.not_le.mpr inside)]
      cases (nextToken c rest).1 with
      | none =>
        rcases ih enough with all | ⟨more, later, isAnswer, isLater, notLonger, _⟩
        · exact .inl all
        · have isShorter := Nat.lt_of_le_of_lt notLonger shorter
          exact .inr ⟨more, later, isAnswer, isLater, Nat.le_of_lt isShorter, fun _ => isShorter⟩
      | some token =>
        rw [show maxtokens - idx = maxtokens - (idx + 1) + 1 by omega]
        rcases @ih _ (idx + 1) enough with
          ⟨all, isAnswer⟩ | ⟨more, later, isAnswer, isLater, notLonger, _⟩
        · dsimp only
          rw [isAnswer]
          exact .inl ⟨Nat.succ_le_succ all, rfl⟩
        · have isShorter := Nat.lt_of_le_of_lt notLonger shorter
          dsimp only
          rw [isAnswer]
          exact .inr ⟨Nat.succ_lt_succ more, later, rfl, isLater, Nat.le_of_lt isShorter,
            fun _ => isShorter⟩
    · exact (Tokenizes.next others).gives_full full

theorem Tokenizes.getTokens (tokenizes : Tokenizes text tokens)
    (allRoom : tokens.length ≤ maxtokens) :
    GetTokens.getTokens maxtokens text = some (tokens, []) := by
  rcases @Tokenizes.gives _ _ _ maxtokens 0 tokenizes (Nat.lt_succ_self text.length) with
    ⟨_, isAnswer⟩ | ⟨more, _⟩
  · exact isAnswer
  · exact absurd allRoom (Nat.not_le.mpr more)

theorem Tokenizes.documentTokens (tokenizes : Tokenizes text tokens) {calls : Nat}
    (someRoom : 1 ≤ maxtokens) (enough : text.length < calls) :
    GetTokens.documentTokens maxtokens calls text = some tokens := by
  induction calls generalizing text tokens with
  | zero => cases enough
  | succ calls ih =>
    obtain ⟨words, isLast, notIn⟩ := tokenizes.last
    rw [GetTokens.documentTokens, GetTokens.getTokens]
    rcases @Tokenizes.gives _ _ _ maxtokens 0 tokenizes (Nat.lt_succ_self text.length) with
      ⟨_, isAnswer⟩ | ⟨more, rest, isAnswer, others, _, shorter⟩
    · have isIn : endOfDocument ∈ tokens := by
        rw [isLast]
        exact List.mem_append_right _ List.mem_cons_self
      rw [isAnswer, Option.bind_some, if_pos isIn]
    · have isFront : tokens.take (maxtokens - 0) = words.take (maxtokens - 0) := by
        rw [isLast, List.length_append, List.length_singleton] at more
        rw [isLast, List.take_append_of_le_length (Nat.le_of_lt_succ more)]
      have goesOn : endOfDocument ∉ tokens.take (maxtokens - 0) := by
        rw [isFront]
        exact fun isIn => notIn (List.mem_of_mem_take isIn)
      have isShorter := shorter someRoom
      rw [isAnswer, Option.bind_some, if_neg goesOn, ih others (by omega), Option.map_some,
        List.take_append_drop]

theorem Tokenizes.shows_iff (tokenizes : Tokenizes text tokens) :
    tokens.flatMap Token.outline = outline false (pieces text) ↔ Separated 0 (pieces text) := by
  induction tokenizes with
  | done => exact iff_of_true rfl trivial
  | @next c rest tokens _ ih =>
    rw [List.flatMap_append]
    rcases @nextToken_shows c rest with ⟨same, separated⟩ | ⟨notSeparated, differ⟩
    · rw [same, separated, ← ih]
      exact List.append_right_inj _
    · exact iff_of_false (differ _) notSeparated

end Calls

/-- Calls of any size give the tokens that one call with room for all gives, and every token is
as it is to be. -/
theorem getTokens_same (text : List UInt8) :
    ∃ tokens, (∀ token ∈ tokens, Proper token) ∧
      (∀ maxtokens, tokens.length ≤ maxtokens → getTokens maxtokens text = some (tokens, [])) ∧
      ∀ maxtokens, 1 ≤ maxtokens →
        documentTokens maxtokens (text.length + 1) text = some tokens := by
  obtain ⟨tokens, tokenizes⟩ := exists_tokens text
  refine ⟨tokens, tokenizes.proper, fun maxtokens allRoom => tokenizes.getTokens allRoom,
    fun maxtokens someRoom => ?_⟩
  exact tokenizes.documentTokens someRoom (Nat.lt_succ_self _)

/-- The tokens show the text exactly when no comma is taken for a special character. -/
theorem getTokens_covers_iff (text : List UInt8) :
    ∃ tokens, getTokens tokens.length text = some (tokens, []) ∧
      (tokens.flatMap Token.outline = outline false (pieces text) ↔ Separated 0 (pieces text)) := by
  obtain ⟨tokens, tokenizes⟩ := exists_tokens text
  exact ⟨tokens, tokenizes.getTokens (Nat.le_refl _), tokenizes.shows_iff⟩

/-- `"!,!"` is one token. -/
example : getTokens 5 [33, 44, 33] =
    some ([⟨.specialChar, [33, 44, 33]⟩, endOfDocument], []) := by decide

end Wisebot.Extractor.GetTokens
