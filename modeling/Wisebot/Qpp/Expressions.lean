import Wisebot.Qpp.DaumTree

namespace Wisebot.Qpp

/-! What `parse_daum_query` makes of the tokens of an expression. -/

inductive Level
  | factor
  | product
  | sum

/-- The operators that an expression of a level may have outside of parentheses. -/
def Level.operators : Level → List DaumOp
  | .factor => []
  | .product => [.and]
  | .sum => [.and, .or]

def andSign : Text := [38]

def orSign : Text := [124]

/-- A word is a token that is neither empty nor an operator. -/
structure IsWord (word : Text) : Prop where
  notEmpty : word ≠ []
  noOperator : daumOp word = .none

/-- Expressions of words, `&` and `|`: the grammar in which `&` binds tighter than
`|`, and both associate to the left. -/
inductive Expression : Level → Type
  | word (word : Text) (isWord : IsWord word) : Expression .factor
  | group (opening closing : Text) (opens : daumOp opening = .lparen)
      (closes : daumOp closing = .rparen) (inner : Expression .sum) : Expression .factor
  | product (inner : Expression .factor) : Expression .product
  | and (left : Expression .product) (right : Expression .factor) : Expression .product
  | sum (inner : Expression .product) : Expression .sum
  | or (left : Expression .sum) (right : Expression .product) : Expression .sum

namespace Expression

def tokens : {level : Level} → Expression level → List Text
  | _, .word text _ => [text]
  | _, .group opening closing _ _ inner => opening :: inner.tokens ++ [closing]
  | _, .product inner => inner.tokens
  | _, .and left right => left.tokens ++ andSign :: right.tokens
  | _, .sum inner => inner.tokens
  | _, .or left right => left.tokens ++ orSign :: right.tokens

def tree : {level : Level} → Expression level → DaumTree
  | _, .word text _ => .word text
  | _, .group _ _ _ _ inner => inner.tree
  | _, .product inner => inner.tree
  | _, .and left right => .operator .and left.tree right.tree
  | _, .sum inner => inner.tree
  | _, .or left right => .operator .or left.tree right.tree

def operandDepth : {level : Level} → Expression level → Nat
  | _, .word _ _ => 1
  | _, .group _ _ _ _ inner => inner.operandDepth
  | _, .product inner => inner.operandDepth
  | _, .and left right => max left.operandDepth (1 + right.operandDepth)
  | _, .sum inner => inner.operandDepth
  | _, .or left right => max left.operandDepth (1 + right.operandDepth)

/-- How many operators and opening parentheses stand on the stack at once. -/
def operatorDepth : {level : Level} → Expression level → Nat
  | _, .word _ _ => 0
  | _, .group _ _ _ _ inner => 1 + inner.operatorDepth
  | _, .product inner => inner.operatorDepth
  | _, .and left right => max left.operatorDepth (1 + right.operatorDepth)
  | _, .sum inner => inner.operatorDepth
  | _, .or left right => max left.operatorDepth (1 + right.operatorDepth)

end Expression

section Reading

variable {operands : List DaumTree} {operators : List DaumOp} {isPopped : DaumOp → Bool}

theorem popWhile_stays
    (stays : ∀ top ∈ operators.head?, top = .lparen ∨ isPopped top = false) :
    popWhile isPopped operands operators = some ⟨operands, operators⟩ := by
  cases operators with
  | nil => rfl
  | cons top operators =>
    rw [popWhile, if_neg]
    rintro ⟨noParen, popped⟩
    cases stays top rfl with
    | inl isParen => exact noParen isParen
    | inr stays => exact Bool.false_ne_true (stays.symm.trans popped)

theorem popWhile_applies {op : DaumOp} (noParen : op ≠ .lparen) (popped : isPopped op = true)
    (left right : DaumTree) :
    popWhile isPopped (right :: left :: operands) (op :: operators) =
      popWhile isPopped (.operator op left right :: operands) operators := by
  rw [popWhile, if_pos ⟨noParen, popped⟩, popStack, if_neg noParen]
  rfl

/-- No operator of the level applies what is on top of the stack. -/
def Opens (level : Level) (operators : List DaumOp) : Prop :=
  ∀ op ∈ level.operators, ∀ top ∈ operators.head?, top = .lparen ∨ top.value < op.value

/-- The tokens have been read, and as soon as the operators of their level are
applied, nothing but the tree is left of them. -/
def Reads (level : Level) (words : List Text) (tree : DaumTree) (operands : List DaumTree)
    (operators : List DaumOp) : Prop :=
  ∃ state, words.foldlM readToken ⟨operands, operators⟩ = some state ∧
    ∀ isPopped : DaumOp → Bool, (∀ op ∈ level.operators, isPopped op = true) →
      popWhile isPopped state.operands state.operators =
        popWhile isPopped (tree :: operands) operators

theorem Reads.mono {level higher : Level} {words : List Text} {tree : DaumTree}
    (contained : ∀ op ∈ level.operators, op ∈ higher.operators)
    (reads : Reads level words tree operands operators) :
    Reads higher words tree operands operators := by
  obtain ⟨state, read, applied⟩ := reads
  exact ⟨state, read, fun isPopped popped =>
    applied isPopped fun op member => popped op (contained op member)⟩

theorem reads_word {word : Text} (isWord : IsWord word)
    (room : operands.length + 1 ≤ operandStackSize) :
    Reads .factor [word] (.word word) operands operators := by
  refine ⟨⟨.word word :: operands, operators⟩, ?_, fun _ _ => rfl⟩
  have pushed : readToken ⟨operands, operators⟩ word =
      some ⟨.word word :: operands, operators⟩ := by
    rw [readToken, if_neg isWord.notEmpty]
    simp only [isWord.noOperator]
    rw [if_neg (Nat.not_le.mpr room)]
  rw [List.foldlM_cons, pushed]
  rfl

theorem not_nil_of_daumOp {word : Text} {op : DaumOp} (isOp : daumOp word = op)
    (operator : op ≠ .none) : word ≠ [] := by
  rintro rfl
  exact operator isOp.symm

theorem readToken_opening {opening : Text} (opens : daumOp opening = .lparen)
    (room : operators.length + 1 ≤ operatorStackSize) :
    readToken ⟨operands, operators⟩ opening = some ⟨operands, .lparen :: operators⟩ := by
  have stays : ∀ top ∈ operators.head?,
      top = .lparen ∨ decide (DaumOp.lparen.value ≤ top.value) = false := by
    intro top _
    cases top with
    | lparen => exact Or.inl rfl
    | none => exact Or.inr rfl
    | or => exact Or.inr rfl
    | and => exact Or.inr rfl
    | rparen => exact Or.inr rfl
  rw [readToken, if_neg (not_nil_of_daumOp opens (by decide))]
  simp only [opens]
  rw [popWhile_stays stays, Option.bind_some, if_neg (Nat.not_le.mpr room)]

theorem reads_group {opening closing : Text} {words : List Text} {tree : DaumTree}
    (opens : daumOp opening = .lparen) (closes : daumOp closing = .rparen)
    (room : operators.length + 1 ≤ operatorStackSize)
    (reads : Reads .sum words tree operands (.lparen :: operators)) :
    Reads .factor (opening :: words ++ [closing]) tree operands operators := by
  obtain ⟨state, read, applied⟩ := reads
  have closed : readToken state closing = some ⟨tree :: operands, operators⟩ := by
    rw [readToken, if_neg (not_nil_of_daumOp closes (by decide))]
    simp only [closes]
    rw [applied (fun _ => true) (fun _ _ => rfl),
      popWhile_stays (by simp), Option.bind_some]
  refine ⟨⟨tree :: operands, operators⟩, ?_, fun _ _ => rfl⟩
  rw [List.cons_append, List.foldlM_cons, readToken_opening opens room]
  calc (words ++ [closing]).foldlM readToken ⟨operands, .lparen :: operators⟩
      = (words.foldlM readToken ⟨operands, .lparen :: operators⟩).bind
          fun state => [closing].foldlM readToken state := List.foldlM_append
    _ = [closing].foldlM readToken state := by rw [read, Option.bind_some]
    _ = some ⟨tree :: operands, operators⟩ := by
        rw [List.foldlM_cons, closed]
        rfl

/-- An operator applies those of its left operand, and is applied with those of the
level it belongs to. -/
theorem reads_operation {level inner : Level} {op : DaumOp} {sign : Text}
    {leftWords rightWords : List Text} {left right : DaumTree}
    (isSign : daumOp sign = op) (isOperator : op = .and ∨ op = .or)
    (member : op ∈ level.operators)
    (least : ∀ other ∈ level.operators, op.value ≤ other.value)
    (contained : ∀ other ∈ inner.operators, other ∈ level.operators)
    (opens : Opens level operators) (room : operators.length + 1 ≤ operatorStackSize)
    (readsLeft : Reads level leftWords left operands operators)
    (readsRight : Reads inner rightWords right (left :: operands) (op :: operators)) :
    Reads level (leftWords ++ sign :: rightWords) (.operator op left right) operands
      operators := by
  obtain ⟨before, readBefore, appliedBefore⟩ := readsLeft
  obtain ⟨state, read, applied⟩ := readsRight
  have stays : ∀ top ∈ operators.head?,
      top = .lparen ∨ decide (op.value ≤ top.value) = false := by
    intro top isTop
    exact (opens op member top isTop).imp_right fun less =>
      decide_eq_false (Nat.not_le.mpr less)
  have pushed : readToken before sign = some ⟨left :: operands, op :: operators⟩ := by
    rw [readToken, if_neg (not_nil_of_daumOp isSign (by
      rcases isOperator with rfl | rfl <;> decide))]
    have popped := appliedBefore (fun top => op.value ≤ top.value)
      (fun other isOther => decide_eq_true (least other isOther))
    rcases isOperator with rfl | rfl
    · simp only [isSign]
      rw [popped, popWhile_stays stays, Option.bind_some, if_neg (Nat.not_le.mpr room)]
    · simp only [isSign]
      rw [popped, popWhile_stays stays, Option.bind_some, if_neg (Nat.not_le.mpr room)]
  refine ⟨state, ?_, fun isPopped popped => ?_⟩
  · calc (leftWords ++ sign :: rightWords).foldlM readToken ⟨operands, operators⟩
        = (leftWords.foldlM readToken ⟨operands, operators⟩).bind
            fun state => (sign :: rightWords).foldlM readToken state := List.foldlM_append
      _ = (sign :: rightWords).foldlM readToken before := by rw [readBefore, Option.bind_some]
      _ = rightWords.foldlM readToken ⟨left :: operands, op :: operators⟩ := by
          rw [List.foldlM_cons, pushed]
          rfl
      _ = some state := read
  · rw [applied isPopped fun other isOther => popped other (contained other isOther)]
    exact popWhile_applies (by rcases isOperator with rfl | rfl <;> decide) (popped op member)
      left right

theorem opens_lparen (level : Level) : Opens level (.lparen :: operators) := by
  rintro op _ top isTop
  cases isTop
  exact Or.inl rfl

theorem opens_factor (operators : List DaumOp) : Opens .factor operators :=
  fun _ member => absurd member List.not_mem_nil

theorem Opens.product (opens : Opens .sum operators) : Opens .product operators :=
  fun op member => opens op (by
    rw [List.mem_singleton.mp member]
    exact List.mem_cons_self)

theorem opens_behind_or : Opens .product (.or :: operators) := by
  rintro op member top isTop
  cases isTop
  rw [List.mem_singleton.mp member]
  exact Or.inr (by decide)

theorem Expression.reads {level : Level} (expression : Expression level) :
    ∀ operands operators, Opens level operators →
      operands.length + expression.operandDepth ≤ operandStackSize →
      operators.length + expression.operatorDepth ≤ operatorStackSize →
      Reads level expression.tokens expression.tree operands operators := by
  induction expression with
  | word word isWord =>
    intro operands operators _ room _
    exact reads_word isWord room
  | group opening closing opens closes inner ih =>
    intro operands operators _ room parens
    simp only [operandDepth, operatorDepth] at room parens
    exact reads_group opens closes (by omega)
      (ih operands _ (opens_lparen _) room (by rw [List.length_cons]; omega))
  | product inner ih =>
    intro operands operators _ room parens
    exact (ih operands operators (opens_factor _) room parens).mono
      fun _ member => absurd member List.not_mem_nil
  | and left right ihLeft ihRight =>
    intro operands operators opens room parens
    simp only [operandDepth, operatorDepth] at room parens
    refine reads_operation (by decide) (Or.inl rfl) (List.mem_singleton_self _)
      (fun other member => ?_) (fun _ member => absurd member List.not_mem_nil) opens
      (by omega) (ihLeft operands operators opens (by omega) (by omega))
      (ihRight _ _ (opens_factor _) (by rw [List.length_cons]; omega)
        (by rw [List.length_cons]; omega))
    rw [List.mem_singleton.mp member]
  | sum inner ih =>
    intro operands operators opens room parens
    refine (ih operands operators opens.product room parens).mono fun op member => ?_
    rw [List.mem_singleton.mp member]
    exact List.mem_cons_self
  | or left right ihLeft ihRight =>
    intro operands operators opens room parens
    simp only [operandDepth, operatorDepth] at room parens
    refine reads_operation (by decide) (Or.inr rfl) (by decide)
      (by decide) (by decide) opens
      (by omega) (ihLeft operands operators opens (by omega) (by omega))
      (ihRight _ _ opens_behind_or (by rw [List.length_cons]; omega)
        (by rw [List.length_cons]; omega))

theorem popAll_of_popWhile (operators : List DaumOp) :
    ∀ (operands : List DaumTree) {state : Stacks},
      popWhile (fun _ => true) operands operators = some state → state.operators = [] →
      popAll operands operators = some state.operands := by
  induction operators with
  | nil =>
    intro operands state popped _
    cases popped
    rfl
  | cons op operators ih =>
    intro operands state popped closed
    rw [popWhile] at popped
    by_cases isParen : op = .lparen
    · rw [if_neg (fun goes => goes.1 isParen)] at popped
      cases popped
      exact absurd closed (List.cons_ne_nil _ _)
    · rw [if_pos ⟨isParen, rfl⟩] at popped
      rw [popAll]
      cases applied : popStack operands op with
      | none =>
        rw [applied] at popped
        cases popped
      | some next =>
        rw [applied] at popped
        exact ih next popped closed

theorem foldlM_readToken_filter (words : List Text) :
    ∀ state, words.foldlM readToken state =
      (words.filter fun word => word ≠ []).foldlM readToken state := by
  induction words with
  | nil =>
    intro state
    rfl
  | cons word words ih =>
    intro state
    by_cases isEmpty : word = []
    · rw [List.filter_cons_of_neg (by simpa using isEmpty), List.foldlM_cons, readToken,
        if_pos isEmpty]
      exact ih state
    · rw [List.filter_cons_of_pos (by simpa using isEmpty), List.foldlM_cons, List.foldlM_cons]
      congr 1
      funext next
      exact ih next

theorem parseDaumQuery_of_tokens {words : List Text} (expression : Expression .sum)
    (isExpression : words.filter (fun word => word ≠ []) = expression.tokens)
    (operands : expression.operandDepth ≤ operandStackSize)
    (operators : expression.operatorDepth ≤ operatorStackSize) :
    parseDaumQuery words = some expression.tree := by
  have opens : Opens .sum [] := fun _ _ _ isTop => absurd isTop (by simp)
  obtain ⟨state, read, applied⟩ := expression.reads [] [] opens (by simpa using operands)
    (by simpa using operators)
  have ended : popAll state.operands state.operators = some [expression.tree] :=
    popAll_of_popWhile _ _ (applied (fun _ => true) fun _ _ => rfl) rfl
  rw [parseDaumQuery, parseTokens, foldlM_readToken_filter, isExpression, read,
    Option.bind_some, ended]
  rfl

end Reading

end Wisebot.Qpp
