import Wisebot.Qpp.Expressions
import Wisebot.Qpp.PostOrder

namespace Wisebot.Qpp

/-! The query of the analyzer on the postfix stack. -/

def Item.node (config : Config) (pStObj : StateObj) : Item → QueryNode
  | .word text => operandNode config pStObj (text.take (maxWordLen - 1))
  | .operator op => .operator (if op = .and then .and else .or) 2

def DaumTree.Plain : DaumTree → Prop
  | .word _ => True
  | .operator op left right => (op = .and ∨ op = .or) ∧ left.Plain ∧ right.Plain

theorem Expression.plain_tree {level : Level} (expression : Expression level) :
    expression.tree.Plain := by
  induction expression with
  | word word isWord => exact trivial
  | group _ _ _ _ inner ih => exact ih
  | product inner ih => exact ih
  | and left right ihLeft ihRight => exact ⟨Or.inl rfl, ihLeft, ihRight⟩
  | sum inner ih => exact ih
  | or left right ihLeft ihRight => exact ⟨Or.inr rfl, ihLeft, ihRight⟩

section Pushing

variable {config : Config} {pStObj : StateObj}

/-- The nodes go to the postfix stack as far as there is room, and all of them if the
call succeeds. -/
def Pushes (config : Config) (pStObj : StateObj) (items : List Item)
    (result : Int × StateObj) : Prop :=
  (∃ truncated, result.2 = { pStObj with
    truncated
    postfixStack := ((items.map (Item.node config pStObj)).take
      (maxStackLen - pStObj.postfixStack.length)).reverse ++ pStObj.postfixStack }) ∧
  (result.1 = success ↔ pStObj.postfixStack.length + items.length ≤ maxStackLen)

theorem pushes_stkPush (item : Item) (truncated : Bool) :
    Pushes config pStObj [item] (stkPush { pStObj with truncated } (item.node config pStObj)) := by
  rw [stkPush]
  by_cases isFull : maxStackLen ≤ pStObj.postfixStack.length
  · rw [if_pos isFull]
    refine ⟨⟨truncated, ?_⟩, ?_⟩
    · rw [Nat.sub_eq_zero_of_le isFull]
      rfl
    · refine ⟨fun isSuccess => absurd isSuccess (show stackOverflow ≠ success by decide),
        fun room => ?_⟩
      rw [List.length_singleton] at room
      omega
  · rw [if_neg isFull]
    refine ⟨⟨truncated, ?_⟩, ?_⟩
    · rw [List.take_of_length_le (by rw [List.length_map, List.length_singleton]; omega)]
      rfl
    · exact ⟨fun _ => by rw [List.length_singleton]; omega, fun _ => rfl⟩

theorem Pushes.append {first second : List Item} {result : Int × StateObj}
    {next : StateObj → Int × StateObj} (pushes : Pushes config pStObj first result)
    (pushesNext : ∀ pStObj, Pushes config pStObj second (next pStObj)) :
    Pushes config pStObj (first ++ second)
      (if result.1 ≠ success then (fail, result.2) else next result.2) := by
  obtain ⟨ret, state⟩ := result
  obtain ⟨⟨truncated, rfl⟩, succeeds⟩ := pushes
  rw [Pushes, List.map_append, List.take_append, List.reverse_append, List.length_append]
  by_cases room : pStObj.postfixStack.length + first.length ≤ maxStackLen
  · have whole : (first.map (Item.node config pStObj)).take
        (maxStackLen - pStObj.postfixStack.length) = first.map (Item.node config pStObj) :=
      List.take_of_length_le (by rw [List.length_map]; omega)
    rw [if_neg (not_not_intro (succeeds.mpr room)), whole]
    obtain ⟨⟨last, afterNext⟩, succeedsNext⟩ := pushesNext { pStObj with
      truncated
      postfixStack := (first.map (Item.node config pStObj)).reverse ++ pStObj.postfixStack }
    rw [afterNext, succeedsNext, List.length_append, List.length_reverse, List.length_map]
    refine ⟨⟨last, ?_⟩, by omega⟩
    rw [Nat.sub_sub, Nat.add_comm pStObj.postfixStack.length, List.append_assoc]
    rfl
  · rw [if_pos (fun isSuccess => room (succeeds.mp isSuccess))]
    have nothing : maxStackLen - pStObj.postfixStack.length -
        (first.map (Item.node config pStObj)).length = 0 := by
      rw [List.length_map]
      omega
    rw [nothing]
    refine ⟨⟨truncated, rfl⟩,
      fun isSuccess => absurd isSuccess (show fail ≠ success by decide), fun all => ?_⟩
    omega

theorem pushes_pushDaumTree (config : Config) {tree : DaumTree} (plain : tree.Plain) :
    ∀ pStObj, Pushes config pStObj tree.postOrder (pushDaumTree config pStObj tree) := by
  induction tree with
  | word word =>
    intro pStObj
    exact pushes_stkPush (.word word) _
  | operator op left right ihLeft ihRight =>
    intro pStObj
    obtain ⟨isOperator, plainLeft, plainRight⟩ := plain
    rw [DaumTree.postOrder, List.append_assoc]
    rcases isOperator with rfl | rfl
    · exact (ihLeft plainLeft pStObj).append fun pStObj =>
        (ihRight plainRight pStObj).append fun pStObj =>
          pushes_stkPush (.operator .and) pStObj.truncated
    · exact (ihLeft plainLeft pStObj).append fun pStObj =>
        (ihRight plainRight pStObj).append fun pStObj =>
          pushes_stkPush (.operator .or) pStObj.truncated

end Pushing

/-! ### `parse_daum_query` and `push_daum_tree` -/

/-- The tokens of an expression give its tree, whose nodes are pushed in post-order.
There is no tree if parentheses do not match, if what the tokens apply is not the
post-order of one, or if there is not one word more than there are operators. -/
theorem parseDaumQuery_spec (words : List Text) :
    (∀ expression : Expression .sum,
      words.filter (fun word => word ≠ []) = expression.tokens →
      expression.operandDepth ≤ operandStackSize →
      expression.operatorDepth ≤ operatorStackSize →
      parseDaumQuery words = some expression.tree ∧
        ∀ config pStObj, Pushes config pStObj expression.tree.postOrder
          (pushDaumTree config pStObj expression.tree)) ∧
    (¬Balanced 0 words ∨ (∀ tree : DaumTree, applied [] words ≠ some tree.postOrder) ∨
        words.countP isOperandToken ≠ words.countP isOperatorToken + 1 →
      parseDaumQuery words = none) := by
  refine ⟨fun expression isExpression operands operators =>
    ⟨parseDaumQuery_of_tokens expression isExpression operands operators,
      fun config => pushes_pushDaumTree config expression.plain_tree⟩, fun noTree => ?_⟩
  cases parsed : parseDaumQuery words with
  | none => rfl
  | some tree =>
    have order := applied_of_parseDaumQuery parsed
    obtain ⟨isWords, isOperators⟩ := countP_applied words order
    have balanced := balanced_of_applied words order
    have counted := countP_postOrder tree
    rw [isWords, isOperators] at counted
    rcases noTree with unbalanced | noOrder | miscounted
    · exact absurd balanced unbalanced
    · exact absurd order (noOrder tree)
    · exact absurd (counted.trans (congrArg (· + 1) (Nat.zero_add _))) miscounted

/-- `a | b & {c}` -/
def aOrBAndC : Expression .sum :=
  .or (.sum (.product (.word [97] ⟨by decide, by decide⟩)))
    (.and (.product (.word [98] ⟨by decide, by decide⟩))
      (.group [123] [125] (by decide) (by decide)
        (.sum (.product (.word [99] ⟨by decide, by decide⟩)))))

theorem parseDaumQuery_braces :
    parseDaumQuery [[97], [124], [98], [38], [], [123], [99], [125]] =
      some (.operator .or (.word [97]) (.operator .and (.word [98]) (.word [99]))) :=
  ((parseDaumQuery_spec [[97], [124], [98], [38], [], [123], [99], [125]]).1 aOrBAndC
    (by decide) (by decide) (by decide)).1

def EndsOperand (words : List Text) : Prop :=
  ∃ word ∈ words.getLast?, isOperandToken word = true ∨ daumOp word = .rparen

def BeginsOperand (words : List Text) : Prop :=
  ∃ word ∈ words.head?, isOperandToken word = true ∨ daumOp word = .lparen

def MissingOperand (words : List Text) : Prop :=
  ∃ before sign behind, words.filter (fun word => word ≠ []) = before ++ sign :: behind ∧
    isOperatorToken sign = true ∧ ¬(EndsOperand before ∧ BeginsOperand behind)

/-- `a b &` is read like `a & b`. -/
theorem parseDaumQuery_operand_elsewhere :
    MissingOperand [[97], [98], [38]] ∧
      parseDaumQuery [[97], [98], [38]] =
        some (.operator .and (.word [97]) (.word [98])) := by
  refine ⟨⟨[[97], [98]], [38], [], by decide, by decide, ?_⟩, by decide⟩
  rintro ⟨_, word, isHead, _⟩
  cases isHead

end Wisebot.Qpp
