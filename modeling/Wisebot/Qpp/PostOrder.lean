import Wisebot.Qpp.DaumTree

namespace Wisebot.Qpp

/-! The order in which `parse_daum_query` applies operators, and which tokens have one
that is the post-order of a tree. -/

inductive Item
  | word (word : Text)
  | operator (op : DaumOp)
  deriving DecidableEq, Repr

def DaumTree.postOrder : DaumTree → List Item
  | .word text => [.word text]
  | .operator op left right => left.postOrder ++ right.postOrder ++ [.operator op]

/-- The pending operators that a token applies, those of its parentheses for which
`isPopped` holds. -/
def isApplied (isPopped : DaumOp → Bool) (top : DaumOp) : Bool := top ≠ .lparen ∧ isPopped top

/-- The words in their order, and each operator where it is applied: in front of the
next operator that does not bind tighter, or where its parentheses or the tokens end.
There is no such order if parentheses do not match. -/
def applied (pending : List DaumOp) : List Text → Option (List Item)
  | [] => if .lparen ∈ pending then none else some (pending.map .operator)
  | word :: words =>
    if word = [] then applied pending words
    else
      match daumOp word with
      | .none => (applied pending words).map (.word word :: ·)
      | .rparen =>
        match pending.dropWhile (isApplied fun _ => true) with
        | [] => none
        | _ :: outer => (applied outer words).map
            ((pending.takeWhile (isApplied fun _ => true)).map .operator ++ ·)
      | op =>
        let isPopped := isApplied fun top => op.value ≤ top.value
        (applied (op :: pending.dropWhile isPopped) words).map
          ((pending.takeWhile isPopped).map .operator ++ ·)

def madeOf (operands : List DaumTree) : List Item :=
  operands.reverse.flatMap DaumTree.postOrder

section Order

theorem madeOf_cons (tree : DaumTree) (operands : List DaumTree) :
    madeOf (tree :: operands) = madeOf operands ++ tree.postOrder := by
  simp [madeOf]

theorem madeOf_popStack {operands after : List DaumTree} {op : DaumOp}
    (popped : popStack operands op = some after) :
    op ≠ .lparen ∧ madeOf after = madeOf operands ++ [.operator op] := by
  unfold popStack at popped
  split at popped
  · rename_i operand1 operand2 rest
    split at popped
    · cases popped
    · rename_i noParen
      cases popped
      refine ⟨noParen, ?_⟩
      rw [madeOf_cons, madeOf_cons, madeOf_cons, DaumTree.postOrder]
      simp only [List.append_assoc]
  · cases popped

theorem popWhile_spec {isPopped : DaumOp → Bool} (operators : List DaumOp) :
    ∀ {operands : List DaumTree} {state : Stacks},
      popWhile isPopped operands operators = some state →
      state.operators = operators.dropWhile (isApplied isPopped) ∧
        madeOf state.operands = madeOf operands ++
          (operators.takeWhile (isApplied isPopped)).map .operator := by
  induction operators with
  | nil =>
    intro operands state popped
    cases popped
    exact ⟨rfl, (List.append_nil _).symm⟩
  | cons op operators ih =>
    intro operands state popped
    rw [popWhile] at popped
    by_cases goes : op ≠ .lparen ∧ isPopped op = true
    · have isTrue : isApplied isPopped op = true := by simpa [isApplied] using goes
      rw [if_pos goes] at popped
      obtain ⟨next, done, others⟩ := Option.bind_eq_some_iff.mp popped
      obtain ⟨left, made⟩ := ih others
      rw [List.dropWhile_cons_of_pos isTrue, List.takeWhile_cons_of_pos isTrue]
      refine ⟨left, ?_⟩
      rw [made, (madeOf_popStack done).2, List.append_assoc]
      rfl
    · have isFalse : ¬isApplied isPopped op = true := by simpa [isApplied] using goes
      rw [if_neg goes] at popped
      cases popped
      rw [List.dropWhile_cons_of_neg isFalse, List.takeWhile_cons_of_neg isFalse]
      exact ⟨rfl, (List.append_nil _).symm⟩

theorem popAll_spec (operators : List DaumOp) :
    ∀ {operands after : List DaumTree}, popAll operands operators = some after →
      DaumOp.lparen ∉ operators ∧
        madeOf after = madeOf operands ++ operators.map .operator := by
  induction operators with
  | nil =>
    intro operands after popped
    cases popped
    exact ⟨List.not_mem_nil, (List.append_nil _).symm⟩
  | cons op operators ih =>
    intro operands after popped
    rw [popAll] at popped
    obtain ⟨next, done, others⟩ := Option.bind_eq_some_iff.mp popped
    obtain ⟨noParen, made⟩ := madeOf_popStack done
    obtain ⟨others, rest⟩ := ih others
    refine ⟨fun member => ?_, ?_⟩
    · cases member with
      | head => exact noParen rfl
      | tail _ member => exact others member
    · rw [rest, made, List.append_assoc]
      rfl

theorem applied_readToken {state next : Stacks} {word : Text} {words : List Text}
    (read : readToken state word = some next) :
    ∃ added, applied state.operators (word :: words) =
        (applied next.operators words).map (added ++ ·) ∧
      madeOf next.operands = madeOf state.operands ++ added := by
  rw [applied]
  rw [readToken] at read
  by_cases isEmpty : word = []
  · rw [if_pos isEmpty] at read
    cases read
    exact ⟨[], by rw [if_pos isEmpty]; simp, (List.append_nil _).symm⟩
  · rw [if_neg isEmpty] at read
    rw [if_neg isEmpty]
    cases isOp : daumOp word with
    | none =>
      simp only [isOp] at read ⊢
      split at read
      · cases read
      · cases read
        exact ⟨[.word word], rfl, madeOf_cons _ _⟩
    | rparen =>
      simp only [isOp] at read ⊢
      obtain ⟨popped, done, closed⟩ := Option.bind_eq_some_iff.mp read
      obtain ⟨left, made⟩ := popWhile_spec _ done
      rw [← left]
      cases parens : popped.operators with
      | nil =>
        rw [parens] at closed
        cases closed
      | cons paren outer =>
        rw [parens] at closed
        cases closed
        exact ⟨_, rfl, made⟩
    | _ =>
      simp only [isOp] at read ⊢
      obtain ⟨popped, done, pushed⟩ := Option.bind_eq_some_iff.mp read
      obtain ⟨left, made⟩ := popWhile_spec _ done
      rw [← left]
      split at pushed
      · cases pushed
      · cases pushed
        exact ⟨_, rfl, made⟩

theorem postOrder_of_parseTokens (words : List Text) :
    ∀ {state : Stacks} {tree : DaumTree}, parseTokens state words = some tree →
      (applied state.operators words).map (madeOf state.operands ++ ·) = some tree.postOrder := by
  induction words with
  | nil =>
    intro state tree parsed
    rw [parseTokens, List.foldlM_nil, Option.pure_def, Option.bind_some] at parsed
    obtain ⟨operands, popped, single⟩ := Option.bind_eq_some_iff.mp parsed
    obtain ⟨noParen, made⟩ := popAll_spec _ popped
    rw [applied, if_neg noParen, Option.map_some, ← made]
    split at single
    · cases single
      rw [madeOf_cons]
      rfl
    · cases single
  | cons word words ih =>
    intro state tree parsed
    rw [parseTokens, List.foldlM_cons] at parsed
    obtain ⟨last, read, ended⟩ := Option.bind_eq_some_iff.mp parsed
    obtain ⟨next, first, others⟩ := Option.bind_eq_some_iff.mp read
    obtain ⟨added, isApplied, made⟩ := @applied_readToken state next word words first
    have parsedNext : parseTokens next words = some tree := by
      rw [parseTokens, others]
      exact ended
    have rest := ih parsedNext
    rw [isApplied, Option.map_map, ← rest, made]
    congr 1
    funext items
    exact (List.append_assoc _ _ _).symm

theorem applied_of_parseDaumQuery {words : List Text} {tree : DaumTree}
    (parsed : parseDaumQuery words = some tree) : applied [] words = some tree.postOrder := by
  have made := postOrder_of_parseTokens words parsed
  rw [← made]
  exact Option.map_id'.symm

end Order

/-- Every parenthesis that is closed has been opened, and every one that is opened is
closed, with `depth` of them open; `(` and `{` are not told apart. -/
def Balanced : Nat → List Text → Prop
  | depth, [] => depth = 0
  | depth, word :: words =>
    match daumOp word with
    | .lparen => Balanced (depth + 1) words
    | .rparen => 0 < depth ∧ Balanced (depth - 1) words
    | _ => Balanced depth words

def isOperandToken (word : Text) : Bool := word ≠ [] ∧ daumOp word = .none

def isOperatorToken (word : Text) : Bool := daumOp word = .and ∨ daumOp word = .or

def Item.isWord : Item → Bool
  | .word _ => true
  | .operator _ => false

theorem countP_postOrder (tree : DaumTree) :
    tree.postOrder.countP Item.isWord =
      tree.postOrder.countP (fun item => !item.isWord) + 1 := by
  induction tree with
  | word word => rfl
  | operator op left right ihLeft ihRight =>
    have noWord : [Item.operator op].countP Item.isWord = 0 := rfl
    have oneOperator : [Item.operator op].countP (fun item => !item.isWord) = 1 := rfl
    simp only [DaumTree.postOrder, List.countP_append, noWord, oneOperator]
    omega

section Parentheses

variable {isPopped : DaumOp → Bool}

theorem count_takeWhile (pending : List DaumOp) :
    (pending.takeWhile (isApplied isPopped)).count .lparen = 0 := by
  refine List.count_eq_zero.mpr fun member => ?_
  have popped := List.all_eq_true.mp List.all_takeWhile _ member
  simp [isApplied] at popped

theorem count_dropWhile (pending : List DaumOp) :
    (pending.dropWhile (isApplied isPopped)).count .lparen = pending.count .lparen := by
  have parts := congrArg (List.count DaumOp.lparen)
    (List.takeWhile_append_dropWhile (p := isApplied isPopped) (l := pending))
  rw [List.count_append, count_takeWhile, Nat.zero_add] at parts
  exact parts

theorem dropWhile_closing (pending : List DaumOp) :
    (pending.dropWhile (isApplied fun _ => true)).head? = none ∨
      (pending.dropWhile (isApplied fun _ => true)).head? = some .lparen := by
  cases left : (pending.dropWhile (isApplied fun _ => true)).head? with
  | none => exact Or.inl rfl
  | some top =>
    have stays := List.head?_dropWhile_not (isApplied fun _ => true) pending
    rw [left] at stays
    simp [isApplied] at stays
    exact Or.inr (by rw [stays])

theorem balanced_of_applied (words : List Text) :
    ∀ {pending : List DaumOp} {items : List Item}, applied pending words = some items →
      Balanced (pending.count .lparen) words := by
  induction words with
  | nil =>
    intro pending items isApplied
    rw [applied] at isApplied
    split at isApplied
    · cases isApplied
    · rename_i noParen
      exact List.count_eq_zero.mpr noParen
  | cons word words ih =>
    intro pending items isApplied
    rw [applied] at isApplied
    rw [Balanced]
    by_cases isEmpty : word = []
    · rw [if_pos isEmpty] at isApplied
      subst isEmpty
      exact ih isApplied
    · rw [if_neg isEmpty] at isApplied
      cases isOp : daumOp word with
      | none =>
        simp only [isOp] at isApplied ⊢
        obtain ⟨rest, others, _⟩ := Option.map_eq_some_iff.mp isApplied
        exact ih others
      | rparen =>
        simp only [isOp] at isApplied ⊢
        have same := @count_dropWhile (fun _ => true) pending
        have top := dropWhile_closing pending
        cases left : pending.dropWhile (Qpp.isApplied fun _ => true) with
        | nil =>
          simp only [left] at isApplied
          cases isApplied
        | cons paren outer =>
          simp only [left] at isApplied
          obtain ⟨rest, others, _⟩ := Option.map_eq_some_iff.mp isApplied
          rw [left, List.head?_cons] at top
          have isParen : paren = .lparen := by simpa using top
          rw [left, isParen, List.count_cons_self] at same
          rw [← same]
          exact ⟨Nat.succ_pos _, ih others⟩
      | lparen =>
        simp only [isOp] at isApplied ⊢
        obtain ⟨rest, others, _⟩ := Option.map_eq_some_iff.mp isApplied
        have inner := ih others
        rw [List.count_cons_self, count_dropWhile] at inner
        exact inner
      | and | or =>
        simp only [isOp] at isApplied ⊢
        obtain ⟨rest, others, _⟩ := Option.map_eq_some_iff.mp isApplied
        have inner := ih others
        rw [List.count_cons_of_ne (by decide), count_dropWhile] at inner
        exact inner

end Parentheses

section Counting

variable {isPopped : DaumOp → Bool}

def operatorsOf (pending : List DaumOp) : Nat := pending.countP (· ≠ .lparen)

theorem operatorsOf_of_closed {pending : List DaumOp} (noParen : .lparen ∉ pending) :
    operatorsOf pending = pending.length := by
  refine List.countP_eq_length.mpr fun op member => decide_eq_true ?_
  rintro rfl
  exact noParen member

theorem operatorsOf_split (pending : List DaumOp) :
    operatorsOf pending = (pending.takeWhile (isApplied isPopped)).length +
      operatorsOf (pending.dropWhile (isApplied isPopped)) := by
  have noParen : .lparen ∉ pending.takeWhile (isApplied isPopped) :=
    List.count_eq_zero.mp (count_takeWhile pending)
  rw [← operatorsOf_of_closed noParen, operatorsOf, operatorsOf, operatorsOf,
    ← List.countP_append, List.takeWhile_append_dropWhile]

theorem countP_operators (operators : List DaumOp) :
    (operators.map Item.operator).countP Item.isWord = 0 ∧
      (operators.map Item.operator).countP (fun item => !item.isWord) = operators.length := by
  induction operators with
  | nil => exact ⟨rfl, rfl⟩
  | cons op operators ih =>
    refine ⟨?_, ?_⟩
    · rw [List.map_cons, List.countP_cons_of_neg (by simp [Item.isWord])]
      exact ih.1
    · rw [List.map_cons, List.countP_cons_of_pos (by rfl), ih.2]
      rfl

theorem countP_behind (isPopped : DaumOp → Bool) (pending : List DaumOp) (rest : List Item) :
    ((pending.takeWhile (isApplied isPopped)).map Item.operator ++ rest).countP Item.isWord =
        rest.countP Item.isWord ∧
      ((pending.takeWhile (isApplied isPopped)).map Item.operator ++ rest).countP
          (fun item => !item.isWord) + operatorsOf (pending.dropWhile (isApplied isPopped)) =
        operatorsOf pending + rest.countP (fun item => !item.isWord) := by
  obtain ⟨noWord, counted⟩ := countP_operators (pending.takeWhile (isApplied isPopped))
  have split := @operatorsOf_split isPopped pending
  rw [List.countP_append, List.countP_append, noWord, counted]
  exact ⟨Nat.zero_add _, by omega⟩

theorem countP_applied (words : List Text) :
    ∀ {pending : List DaumOp} {items : List Item}, applied pending words = some items →
      items.countP Item.isWord = words.countP isOperandToken ∧
        items.countP (fun item => !item.isWord) =
          operatorsOf pending + words.countP isOperatorToken := by
  induction words with
  | nil =>
    intro pending items isApplied
    rw [applied] at isApplied
    split at isApplied
    · cases isApplied
    · rename_i noParen
      cases isApplied
      obtain ⟨noWord, counted⟩ := countP_operators pending
      exact ⟨noWord, counted.trans (operatorsOf_of_closed noParen).symm⟩
  | cons word words ih =>
    intro pending items isApplied
    rw [applied] at isApplied
    by_cases isEmpty : word = []
    · subst isEmpty
      exact ih isApplied
    · rw [if_neg isEmpty] at isApplied
      cases isOp : daumOp word with
      | none =>
        simp only [isOp] at isApplied
        obtain ⟨rest, others, rfl⟩ := Option.map_eq_some_iff.mp isApplied
        obtain ⟨isWords, isOperators⟩ := ih others
        rw [List.countP_cons_of_pos (by rfl),
          List.countP_cons_of_pos (by simp [isOperandToken, isEmpty, isOp]),
          List.countP_cons_of_neg (by simp [Item.isWord]),
          List.countP_cons_of_neg (by simp [isOperatorToken, isOp])]
        exact ⟨by rw [isWords], isOperators⟩
      | rparen =>
        simp only [isOp] at isApplied
        have top := dropWhile_closing pending
        cases left : pending.dropWhile (Qpp.isApplied fun _ => true) with
        | nil =>
          simp only [left] at isApplied
          cases isApplied
        | cons paren outer =>
          simp only [left] at isApplied
          obtain ⟨rest, others, rfl⟩ := Option.map_eq_some_iff.mp isApplied
          obtain ⟨isWords, isOperators⟩ := ih others
          obtain ⟨sameWords, sameOperators⟩ := countP_behind (fun _ => true) pending rest
          rw [left, List.head?_cons] at top
          have isParen : paren = .lparen := by simpa using top
          have outside : operatorsOf (paren :: outer) = operatorsOf outer :=
            List.countP_cons_of_neg (by simp [isParen])
          rw [left, outside] at sameOperators
          rw [sameWords, List.countP_cons_of_neg (by simp [isOperandToken, isOp]),
            List.countP_cons_of_neg (by simp [isOperatorToken, isOp])]
          exact ⟨isWords, by omega⟩
      | lparen =>
        simp only [isOp] at isApplied
        obtain ⟨rest, others, rfl⟩ := Option.map_eq_some_iff.mp isApplied
        obtain ⟨isWords, isOperators⟩ := ih others
        obtain ⟨sameWords, sameOperators⟩ :=
          countP_behind (fun top => DaumOp.lparen.value ≤ top.value) pending rest
        rw [operatorsOf, List.countP_cons_of_neg (by simp), ← operatorsOf] at isOperators
        rw [sameWords, List.countP_cons_of_neg (by simp [isOperandToken, isOp]),
          List.countP_cons_of_neg (by simp [isOperatorToken, isOp])]
        exact ⟨isWords, by omega⟩
      | and | or =>
        simp only [isOp] at isApplied
        obtain ⟨rest, others, rfl⟩ := Option.map_eq_some_iff.mp isApplied
        obtain ⟨isWords, isOperators⟩ := ih others
        obtain ⟨sameWords, sameOperators⟩ :=
          countP_behind (fun top => (daumOp word).value ≤ top.value) pending rest
        rw [isOp] at sameWords sameOperators
        rw [operatorsOf, List.countP_cons_of_pos (by simp), ← operatorsOf] at isOperators
        rw [sameWords, List.countP_cons_of_neg (by simp [isOperandToken, isOp]),
          List.countP_cons_of_pos (by simp [isOperatorToken, isOp])]
        exact ⟨isWords, by omega⟩

end Counting

end Wisebot.Qpp
