import Wisebot.Query.Request

namespace Wisebot.Query

/-! Whether `init_request` comes to its end. Every scanner moves behind the item it
has read, but the one of `WEIGHT` continues before it moves when an item has no
colon: an item that is not empty is then read again and again. -/

open Agent Lib.Looping

universe u

variable {config : Config} {fuel enough : Nat}

/-- The loops of `init_request` come to their end, whatever it returns. -/
def Ends (config : Config) (query : Option Text) : Prop :=
  ∃ fuel, (initRequest config fuel query).isSome

section Extensions

variable {α β : Type}

theorem ite_extends {p : Prop} [Decidable p] {shared first second : Option α} {result : α}
    (extended : first = some result → second = some result)
    (found : (if p then shared else first) = some result) :
    (if p then shared else second) = some result := by
  split at found
  · rename_i holds
    rw [if_pos holds]
    exact found
  · rename_i fails
    rw [if_neg fails]
    exact extended found

theorem ite_extends_left {p : Prop} [Decidable p] {shared first second : Option α} {result : α}
    (extended : first = some result → second = some result)
    (found : (if p then first else shared) = some result) :
    (if p then second else shared) = some result := by
  split at found
  · rename_i holds
    rw [if_pos holds]
    exact extended found
  · rename_i fails
    rw [if_neg fails]
    exact found

theorem map_extends {put : α → β} {first second : Option α}
    (extended : ∀ value, first = some value → second = some value) {result : β}
    (found : first.map put = some result) : second.map put = some result := by
  obtain ⟨value, isFirst, rfl⟩ := Option.map_eq_some_iff.mp found
  exact Option.map_eq_some_iff.mpr ⟨value, extended value isFirst, rfl⟩

theorem makeGroupbyRule_extends (isMore : fuel ≤ enough) :
    Extends (makeGroupbyRule fuel) (makeGroupbyRule enough) :=
  fun _ _ found => map_extends (fun _ ran => tokens_extends isMore ran) found

theorem groupbyItem_extends (isMore : fuel ≤ enough) (rules : RuleList GroupbyRule) :
    Extends (groupbyItem fuel rules) (groupbyItem enough rules) := by
  intro item move found
  exact ite_extends
    (fun ran => ite_extends_left
      (fun made => map_extends (makeGroupbyRule_extends isMore item) made) ran) found

theorem operationRule_extends (isMore : fuel ≤ enough) (type : ClauseType) :
    Extends (operationRule config fuel type) (operationRule config enough type) := by
  intro clause result found
  have grouped : ∀ made, makeGroupbyRuleList fuel ⟨[], []⟩ clause = some made →
      makeGroupbyRuleList enough ⟨[], []⟩ clause = some made := fun made ran =>
    ite_extends (scan_extends (groupbyItem_extends isMore) isMore _ _ made) ran
  have ordered : ∀ made, makeOrderbyRuleList fuel ⟨[], []⟩ clause = some made →
      makeOrderbyRuleList enough ⟨[], []⟩ clause = some made := fun made ran =>
    ite_extends (tokens_extends isMore) ran
  cases type with
  | groupBy => exact map_extends grouped found
  | countBy => exact map_extends grouped found
  | orderBy => exact map_extends ordered found
  | _ => exact found

theorem addOperation_extends (isMore : fuel ≤ enough) {list : List Operation} {line : Text}
    {type : ClauseType} (clause : Text) {result : Except Failure (List Operation)}
    (found : addOperation config fuel list line type clause = some result) :
    addOperation config enough list line type clause = some result :=
  ite_extends_left
    (fun made => map_extends (operationRule_extends isMore type clause) made) found

theorem scan_same_extends {separator : Char} {body : α → Text → Option (Move α)}
    (isMore : fuel ≤ enough) (state : α) :
    Extends (scan separator body fuel state) (scan separator body enough state) :=
  scan_extends (fun _ _ _ same => same) isMore state

theorem setOperation_extends (isMore : fuel ≤ enough) (parsing : Parsing) (line : Text)
    (type : ClauseType) :
    Extends (setOperation config fuel parsing line type)
      (setOperation config enough parsing line type) := by
  intro clause result found
  have added : ∀ list made, addOperation config fuel list line type clause = some made →
      addOperation config enough list line type clause = some made :=
    fun _ _ ran => addOperation_extends isMore clause ran
  simp only [setOperation] at found ⊢
  split at found
  · rename_i ruled
    rw [if_pos ruled]
    exact map_extends (added _) found
  · rename_i plain
    rw [if_neg plain]
    exact map_extends (added _) found

theorem setClause_extends (isMore : fuel ≤ enough) (parsing : Parsing) :
    Extends (setClause config fuel parsing) (setClause config enough parsing) := by
  intro line result found
  have scanned {α : Type} {separator : Char} {body : α → Text → Option (Move α)}
      {shared : Except Fault α} {state : α} {text : Text} :
      ∀ made,
        (if text = [] then some shared else scan separator body fuel state text) = some made →
        (if text = [] then some shared else scan separator body enough state text) = some made :=
    fun made ran => ite_extends (scan_same_extends isMore state text made) ran
  simp only [setClause] at found ⊢
  cases kind : getClauseType line with
  | none =>
    rw [kind] at found
    exact found
  | some entry =>
    obtain ⟨keyword, type⟩ := entry
    rw [kind] at found
    have operated := @setOperation_extends config _ _ isMore parsing line type
      (line.drop keyword.length) result
    cases type with
    | select => exact map_extends scanned found
    | delete => exact map_extends scanned found
    | weight => exact map_extends scanned found
    | virtualId =>
      refine map_extends (fun made ran => ?_) found
      exact ite_extends (scan_same_extends isMore _ _ made) ran
    | groupBy => exact operated found
    | countBy => exact operated found
    | orderBy => exact operated found
    | limit => exact operated found
    | «where» => exact operated found
    | _ => exact found

end Extensions

section Clauses

theorem selectField_moves : Moves (fun list item => some (selectField list item)) := by
  intro list item after stays
  have stayed := Option.some.inj stays
  simp only [selectField] at stayed
  repeat' split at stayed
  all_goals cases stayed

theorem virtualIdField_moves : Moves (fun list item => some (virtualIdField list item)) := by
  intro list item after stays
  have stayed := Option.some.inj stays
  simp only [virtualIdField] at stayed
  repeat' split at stayed
  all_goals cases stayed

theorem groupbyWord_moves (place : Bool × GroupbyRule) (token rest : Text)
    (after : Bool × GroupbyRule) : groupbyWord place token rest ≠ .stay after := by
  intro stayed
  simp only [groupbyWord] at stayed
  repeat' split at stayed
  all_goals cases stayed

theorem orderbyItem_moves (rules : RuleList OrderbyRule) (token rest : Text)
    (after : RuleList OrderbyRule) : orderbyItem rules token rest ≠ .stay after := by
  intro stayed
  simp only [orderbyItem] at stayed
  repeat' split at stayed
  all_goals cases stayed

theorem groupbyItem_moves (fuel : Nat) : Moves (groupbyItem fuel) := by
  intro rules item after stays
  simp only [groupbyItem] at stays
  split at stays
  · cases stays
  · split at stays
    · obtain ⟨rule, _, stayed⟩ := Option.map_eq_some_iff.mp stays
      cases rule <;> cases stayed
    · cases stays

theorem makeGroupbyRule_isSome {clause : Text} (enough : clause.length < fuel) :
    (makeGroupbyRule fuel clause).isSome := by
  rw [makeGroupbyRule, Option.isSome_map]
  exact tokens_isSome groupbyWord_moves enough

theorem groupbyItem_isSome (rules : RuleList GroupbyRule) {item : Text}
    (enough : item.length < fuel) : (groupbyItem fuel rules item).isSome := by
  simp only [groupbyItem]
  split
  · rfl
  · split
    · rw [Option.isSome_map]
      exact makeGroupbyRule_isSome enough
    · rfl

theorem ite_isSome {α : Type} {p : Prop} [Decidable p] {first : α} {second : Option α}
    (ends : second.isSome) : (if p then some first else second).isSome := by
  split
  · rfl
  · exact ends

theorem setSelectClause_isSome (list : SelectList) {clause : Text}
    (enough : clause.length < fuel) : (setSelectClause fuel list clause).isSome :=
  ite_isSome (scan_isSome selectField_moves (fun _ _ _ => rfl)
    (Nat.lt_of_le_of_lt (length_sbTrim_le clause) enough))

theorem setVirtualId_isSome (list : VirtualRuleList) {clause : Option Text}
    (enough : (clause.getD []).length < fuel) : (setVirtualId fuel list clause).isSome := by
  simp only [setVirtualId]
  split
  · split <;> rfl
  · apply scan_isSome virtualIdField_moves (fun _ _ _ => rfl)
    cases clause with
    | none => exact enough
    | some clause => exact Nat.lt_of_le_of_lt (length_sbTrim_le clause) enough

theorem operationRule_isSome (type : ClauseType) {clause : Text} (enough : clause.length < fuel) :
    (operationRule config fuel type clause).isSome := by
  have short : (sbTrim clause).length < fuel :=
    Nat.lt_of_le_of_lt (length_sbTrim_le clause) enough
  have grouped : (makeGroupbyRuleList fuel ⟨[], []⟩ clause).isSome :=
    ite_isSome (scan_isSome (groupbyItem_moves fuel)
      (fun rules _ shorter => groupbyItem_isSome rules shorter) short)
  have ordered : (makeOrderbyRuleList fuel ⟨[], []⟩ clause).isSome :=
    ite_isSome (tokens_isSome orderbyItem_moves short)
  cases type with
  | groupBy => exact Option.isSome_map.trans grouped
  | countBy => exact Option.isSome_map.trans grouped
  | orderBy => exact Option.isSome_map.trans ordered
  | _ => rfl

theorem setOperation_isSome (parsing : Parsing) (line : Text) (type : ClauseType) {clause : Text}
    (enough : clause.length < fuel) :
    (setOperation config fuel parsing line type clause).isSome := by
  have added : ∀ list, (addOperation config fuel list line type clause).isSome := by
    intro list
    simp only [addOperation]
    split
    · rw [Option.isSome_map]
      exact operationRule_isSome type enough
    · rfl
  simp only [setOperation]
  split
  · exact Option.isSome_map.trans (added _)
  · exact Option.isSome_map.trans (added _)

end Clauses

section Weights

def weightCount (config : Config) (count : Nat) (item : Text) : Nat :=
  let name := sbTrim (upTo ':' item)
  if equalsIgnoringCase "RESET".toList name then count
  else if (isExistReturnField config (name.take shortStringSize)).isSome then count + 1 else count

/-- Each item of a `WEIGHT` clause that is come to has a colon; an empty one and a
full table end the clause. -/
def WeightItems (config : Config) : (count : Nat) → List Text → Prop
  | _, [] => True
  | count, item :: rest =>
    item = [] ∨ ':' ∈ item ∧
      (weightCount config count item < maxWeight →
        WeightItems config (weightCount config count item) rest)

variable {list : WeightList} {item : Text}

theorem weightField_stay (unnamed : ':' ∉ item) : weightField config list item = .stay list :=
  if_neg unnamed

theorem weightField_next (named : ':' ∈ item)
    (free : weightCount config list.list.length item < maxWeight) :
    ∃ after, weightField config list item = .next after ∧
      after.list.length = weightCount config list.list.length item := by
  simp only [weightField, if_pos named]
  rw [weightCount] at free ⊢
  split at free
  · rename_i isReset
    rw [if_pos isReset, if_neg (by simpa using free), if_pos isReset]
    exact ⟨_, rfl, rfl⟩
  · rename_i notReset
    rw [if_neg notReset, if_neg notReset]
    cases known : isExistReturnField config ((sbTrim (upTo ':' item)).take shortStringSize) with
    | none =>
      rw [known] at free
      have room : list.list.length < maxWeight := by simpa using free
      rw [if_pos room]
      simp only
      rw [if_neg (Nat.not_le.mpr room)]
      exact ⟨list, rfl, rfl⟩
    | some fieldId =>
      rw [known] at free
      have room : list.list.length + 1 < maxWeight := by simpa using free
      rw [if_pos (Nat.lt_of_succ_lt room)]
      simp only [List.length_append, List.length_singleton]
      rw [if_neg (Nat.not_le.mpr room)]
      exact ⟨_, rfl, by simp⟩

theorem weightField_full (named : ':' ∈ item)
    (isFull : maxWeight ≤ weightCount config list.list.length item) :
    (∃ after, weightField config list item = .stop after) ∨
      weightField config list item = .fault .tableEnd := by
  simp only [weightField, if_pos named]
  rw [weightCount] at isFull
  split at isFull
  · rename_i isReset
    rw [if_pos isReset, if_pos (by simpa using isFull)]
    exact .inl ⟨_, rfl⟩
  · rename_i notReset
    rw [if_neg notReset]
    split
    · rename_i room
      cases known : isExistReturnField config ((sbTrim (upTo ':' item)).take shortStringSize) with
      | none =>
        rw [known] at isFull
        exact absurd room (Nat.not_lt.mpr (by simpa using isFull))
      | some fieldId =>
        rw [known] at isFull
        have last : maxWeight ≤ list.list.length + 1 := by simpa using isFull
        simp only [List.length_append, List.length_singleton]
        rw [if_pos last]
        exact .inl ⟨_, rfl⟩
    · exact .inr rfl

theorem scan_weight_standing (notEmpty : item ≠ []) (unnamed : ':' ∉ item) (isItem : ',' ∉ item)
    (rounds : Nat) :
    run (scanRound ',' (fun list item => some (weightField config list item))) rounds
      (list, item) = none := by
  apply run_eq_none_of_standing (fun place => place = (list, item)) _ rfl
  intro place standing
  subst standing
  refine ⟨(list, item), ?_, rfl⟩
  simp only [scanRound, if_neg notEmpty, upTo_eq_self isItem, weightField_stay unnamed]

theorem scan_weight_isSome {text : Text}
    (progress : WeightItems config list.list.length (items ',' text))
    (enough : text.length < fuel) :
    (scan ',' (fun list item => some (weightField config list item)) fuel list text).isSome := by
  induction fuel generalizing list text with
  | zero => omega
  | succ fuel ih =>
    by_cases isEmpty : text = []
    · subst isEmpty
      rfl
    · rw [items_of_ne_nil isEmpty] at progress
      rcases progress with emptyItem | ⟨named, later⟩
      · have goes : scanRound ',' (fun list item => some (weightField config list item))
            (list, text) = some (.again (list, [])) := by
          simp only [scanRound, if_neg isEmpty, emptyItem,
            weightField_stay (List.not_mem_nil (a := ':'))]
        have positive := List.length_pos_iff.mpr isEmpty
        obtain ⟨fewer, rfl⟩ : ∃ fewer, fuel = fewer + 1 := ⟨fuel - 1, by omega⟩
        rw [scan, run_of_again goes]
        rfl
      · rcases Nat.lt_or_ge (weightCount config list.list.length (upTo ',' text)) maxWeight with
          free | isFull
        · obtain ⟨after, moved, counted⟩ := weightField_next named free
          by_cases more : ',' ∈ text
          · have goes : scanRound ',' (fun list item => some (weightField config list item))
                (list, text) = some (.again (after, behind ',' text)) := by
              simp only [scanRound, if_neg isEmpty, moved, if_pos more]
            have rest := later free
            rw [if_pos more, ← counted] at rest
            have shorter := length_behind_lt more
            rw [scan, run_of_again goes]
            exact ih rest (by omega)
          · have leaves : scanRound ',' (fun list item => some (weightField config list item))
                (list, text) = some (.leave (.ok after)) := by
              simp only [scanRound, if_neg isEmpty, moved, if_neg more]
            rw [scan, run_of_leave leaves]
            rfl
        · rcases weightField_full named isFull with ⟨after, stopped⟩ | fault
          · have leaves : scanRound ',' (fun list item => some (weightField config list item))
                (list, text) = some (.leave (.ok after)) := by
              simp only [scanRound, if_neg isEmpty, stopped]
            rw [scan, run_of_leave leaves]
            rfl
          · have leaves : scanRound ',' (fun list item => some (weightField config list item))
                (list, text) = some (.leave (.error .tableEnd)) := by
              simp only [scanRound, if_neg isEmpty, fault]
            rw [scan, run_of_leave leaves]
            rfl

theorem weightItems_of_isSome {text : Text}
    (ends : (scan ',' (fun list item => some (weightField config list item)) fuel list
      text).isSome) :
    WeightItems config list.list.length (items ',' text) := by
  induction fuel generalizing list text with
  | zero => cases ends
  | succ fuel ih =>
    by_cases isEmpty : text = []
    · subst isEmpty
      rw [items_nil]
      trivial
    · rw [items_of_ne_nil isEmpty]
      by_cases named : ':' ∈ upTo ',' text
      · refine .inr ⟨named, fun free => ?_⟩
        obtain ⟨after, moved, counted⟩ := weightField_next named free
        by_cases more : ',' ∈ text
        · have goes : scanRound ',' (fun list item => some (weightField config list item))
              (list, text) = some (.again (after, behind ',' text)) := by
            simp only [scanRound, if_neg isEmpty, moved, if_pos more]
          rw [scan, run_of_again goes] at ends
          rw [if_pos more, ← counted]
          exact ih ends
        · rw [if_neg more]
          trivial
      · refine .inl (Classical.byContradiction fun notEmpty => ?_)
        have goes : scanRound ',' (fun list item => some (weightField config list item))
            (list, text) = some (.again (list, upTo ',' text)) := by
          simp only [scanRound, if_neg isEmpty, weightField_stay named]
        rw [scan, run_of_again goes,
          scan_weight_standing notEmpty named (not_mem_upTo ',' text)] at ends
        cases ends

theorem setWeight_isSome {clause : Text}
    (progress : WeightItems config list.list.length (items ',' (sbTrim clause)))
    (enough : clause.length < fuel) : (setWeight config fuel list clause).isSome :=
  ite_isSome (scan_weight_isSome progress
    (Nat.lt_of_le_of_lt (length_sbTrim_le clause) enough))

theorem weightItems_of_setWeight {clause : Text}
    (ends : (setWeight config fuel list clause).isSome) :
    WeightItems config list.list.length (items ',' (sbTrim clause)) := by
  rw [setWeight] at ends
  split at ends
  · rename_i isEmpty
    rw [isEmpty, items_nil]
    trivial
  · have progress := weightItems_of_isSome ends
    exact progress

end Weights

section Lines

def lines (text : Text) : List Text :=
  if sbTrim text = [] then []
  else if _ : newline (sbTrim text) ∈ sbTrim text then
    sbRightTrim (upTo (newline (sbTrim text)) (sbTrim text)) ::
      lines (behind (newline (sbTrim text)) (sbTrim text))
  else [sbRightTrim (upTo (newline (sbTrim text)) (sbTrim text))]
termination_by text.length
decreasing_by exact Nat.lt_of_lt_of_le (length_behind_lt ‹_›) (length_sbTrim_le text)

theorem lines_of_ne_nil {text : Text} (notEmpty : sbTrim text ≠ []) :
    lines text =
      sbRightTrim (upTo (newline (sbTrim text)) (sbTrim text)) ::
        if newline (sbTrim text) ∈ sbTrim text then
          lines (behind (newline (sbTrim text)) (sbTrim text))
        else [] := by
  rw [lines, if_neg notEmpty]
  split <;> rfl

/-- Each `WEIGHT` clause that is come to can be read to its end; a line is come to
when all lines before it have been accepted. -/
def Progresses (config : Config) : Parsing → List Text → Prop
  | _, [] => True
  | parsing, line :: rest =>
    (∀ keyword, getClauseType line = some (keyword, .weight) →
      WeightItems config parsing.request.weightList.list.length
        (items ',' (sbTrim (line.drop keyword.length)))) ∧
    ∀ fuel after, setClause config fuel parsing line = some (.ok after) →
      Progresses config after rest

theorem setClause_isSome {parsing : Parsing} {line : Text}
    (progress : ∀ keyword, getClauseType line = some (keyword, .weight) →
      WeightItems config parsing.request.weightList.list.length
        (items ',' (sbTrim (line.drop keyword.length))))
    (enough : line.length < fuel) : (setClause config fuel parsing line).isSome := by
  simp only [setClause]
  cases kind : getClauseType line with
  | none => rfl
  | some entry =>
    obtain ⟨keyword, type⟩ := entry
    have short : (line.drop keyword.length).length < fuel := by
      rw [List.length_drop]
      omega
    have operated := @setOperation_isSome config _ parsing line type _ short
    cases type with
    | select => exact Option.isSome_map.trans (setSelectClause_isSome _ short)
    | delete => exact Option.isSome_map.trans (setSelectClause_isSome _ short)
    | weight => exact Option.isSome_map.trans (setWeight_isSome (progress keyword kind) short)
    | virtualId => exact Option.isSome_map.trans (setVirtualId_isSome _ short)
    | groupBy => exact operated
    | countBy => exact operated
    | orderBy => exact operated
    | limit => exact operated
    | «where» => exact operated
    | _ => rfl

theorem weightItems_of_setClause {parsing : Parsing} {line keyword : Text}
    (kind : getClauseType line = some (keyword, .weight))
    (ends : (setClause config fuel parsing line).isSome) :
    WeightItems config parsing.request.weightList.list.length
      (items ',' (sbTrim (line.drop keyword.length))) := by
  simp only [setClause, kind, store] at ends
  rw [Option.isSome_map] at ends
  exact weightItems_of_setWeight ends

theorem isBlank_newline (text : Text) : isBlank (newline text) = true := by
  rw [newline]
  split <;> rfl

theorem sbRightTrim_cons {char : Char} (solid : isBlank char = false) (rest : Text) :
    sbRightTrim (char :: rest) = char :: sbRightTrim rest := by
  rw [sbRightTrim, List.reverse_cons, List.dropWhile_append]
  split
  · rename_i allBlank
    rw [sbRightTrim, List.isEmpty_iff.mp allBlank, List.dropWhile_cons_of_neg (by simp [solid])]
    rfl
  · rw [List.reverse_append]
    rfl

theorem sbTrim_cons {char : Char} (solid : isBlank char = false) (rest : Text) :
    sbTrim (char :: rest) = char :: sbRightTrim rest := by
  rw [sbTrim_eq, sbLeftTrim, List.dropWhile_cons_of_neg (by simp [solid]), sbRightTrim_cons solid]

theorem sbTrim_head {char : Char} {rest text : Text} (trimmed : sbTrim text = char :: rest) :
    isBlank char = false := by
  rw [sbTrim_eq] at trimmed
  cases kept : sbLeftTrim text with
  | nil =>
    rw [kept] at trimmed
    cases trimmed
  | cons first later =>
    have solid : isBlank first = false := by
      have head := List.head?_dropWhile_not isBlank text
      rw [← sbLeftTrim, kept] at head
      simpa using head
    rw [kept, sbRightTrim_cons solid] at trimmed
    cases trimmed
    exact solid

theorem sbTrim_line_ne_nil {text : Text} (notEmpty : sbTrim text ≠ []) :
    sbTrim (sbRightTrim (upTo (newline (sbTrim text)) (sbTrim text))) ≠ [] := by
  obtain ⟨char, rest, trimmed⟩ := List.exists_cons_of_ne_nil notEmpty
  have solid := sbTrim_head trimmed
  have differs : char ≠ newline (sbTrim text) := by
    intro same
    rw [same, isBlank_newline] at solid
    cases solid
  rw [trimmed] at differs ⊢
  rw [upTo, List.takeWhile_cons_of_pos (by simpa using differs), sbRightTrim_cons solid,
    sbTrim_cons solid]
  exact List.cons_ne_nil _ _

theorem length_sbRightTrim_le (text : Text) : (sbRightTrim text).length ≤ text.length := by
  rw [sbRightTrim, List.length_reverse]
  calc (text.reverse.dropWhile isBlank).length
      ≤ text.reverse.length := List.length_dropWhile_le _ _
    _ = text.length := List.length_reverse

theorem clauseRound_of_ne_nil {parsing : Parsing} {text : Text} (notEmpty : sbTrim text ≠ []) :
    clauseRound config fuel (parsing, text) =
      (setClause config fuel parsing
        (sbRightTrim (upTo (newline (sbTrim text)) (sbTrim text)))).map fun result =>
          match result with
          | .error failure => .leave (.error failure)
          | .ok parsing => nextLine parsing (sbTrim text) := by
  simp only [clauseRound, if_neg notEmpty, if_neg (sbTrim_line_ne_nil notEmpty)]
  cases setClause config fuel parsing
      (sbRightTrim (upTo (newline (sbTrim text)) (sbTrim text))) with
  | none => rfl
  | some result => cases result <;> rfl

theorem run_clauses_isSome {parsing : Parsing} {text : Text} {rounds : Nat}
    (progress : Progresses config parsing (lines text)) (enough : text.length < rounds)
    (within : rounds ≤ fuel) :
    (run (clauseRound config fuel) rounds (parsing, text)).isSome := by
  induction rounds generalizing parsing text with
  | zero => omega
  | succ rounds ih =>
    by_cases isEmpty : sbTrim text = []
    · have leaves : clauseRound config fuel (parsing, text) = some (.leave (.ok parsing)) := by
        simp only [clauseRound, if_pos isEmpty]
      rw [run_of_leave leaves]
      rfl
    · rw [lines_of_ne_nil isEmpty] at progress
      obtain ⟨weights, later⟩ := progress
      have short := length_sbTrim_le text
      have lineShort := length_sbRightTrim_le (upTo (newline (sbTrim text)) (sbTrim text))
      have upToShort := length_upTo_le (newline (sbTrim text)) (sbTrim text)
      obtain ⟨result, read⟩ := Option.isSome_iff_exists.mp
        (@setClause_isSome _ fuel _ _ weights (by omega))
      have goes := @clauseRound_of_ne_nil config fuel parsing _ isEmpty
      rw [read] at goes
      cases result with
      | error failure =>
        rw [run_of_leave goes]
        rfl
      | ok after =>
        have rest := later fuel after read
        by_cases more : newline (sbTrim text) ∈ sbTrim text
        · simp only [Option.map_some, nextLine, if_pos more] at goes
          have shorter := length_behind_lt more
          rw [run_of_again goes]
          rw [if_pos more] at rest
          exact ih rest (by omega) (by omega)
        · simp only [Option.map_some, nextLine, if_neg more] at goes
          rw [run_of_leave goes]
          rfl

theorem progresses_of_isSome {parsing : Parsing} {text : Text} {rounds : Nat}
    (ends : (run (clauseRound config fuel) rounds (parsing, text)).isSome) :
    Progresses config parsing (lines text) := by
  induction rounds generalizing parsing text with
  | zero => cases ends
  | succ rounds ih =>
    by_cases isEmpty : sbTrim text = []
    · rw [lines, if_pos isEmpty]
      trivial
    · rw [lines_of_ne_nil isEmpty]
      have goes := @clauseRound_of_ne_nil config fuel parsing _ isEmpty
      cases read : setClause config fuel parsing
          (sbRightTrim (upTo (newline (sbTrim text)) (sbTrim text))) with
      | none =>
        rw [read] at goes
        rw [run_of_none goes] at ends
        cases ends
      | some result =>
        have readable := Option.isSome_iff_exists.mpr ⟨result, read⟩
        refine ⟨fun keyword kind => weightItems_of_setClause kind readable,
          fun other after accepted => ?_⟩
        by_cases more : newline (sbTrim text) ∈ sbTrim text
        · rw [if_pos more]
          -- the two numbers of rounds find the same
          have same : result = .ok after := by
            rcases Nat.le_total fuel other with less | less
            · exact Option.some.inj
                ((setClause_extends less parsing _ _ read).symm.trans accepted)
            · exact Option.some.inj
                (read.symm.trans (setClause_extends less parsing _ _ accepted))
          subst same
          rw [read] at goes
          simp only [Option.map_some, nextLine, if_pos more] at goes
          rw [run_of_again goes] at ends
          exact ih ends
        · rw [if_neg more]
          trivial

end Lines

def start (query : Text) : Parsing :=
  ⟨{ Request.zero with query := (sbTrim (cString query)).take maxQueryStringSize }, false⟩

theorem finish_isSome (req : Request) : (finish (fuel + 1) req).isSome := by
  simp only [finish]
  split
  · exact Option.isSome_map.trans (setVirtualId_isSome _ (Nat.succ_pos fuel))
  · rfl

theorem progresses_of_ends {query : Text} (ends : Ends config (some query)) :
    Progresses config (start query) (lines (sbTrim (cString query))) := by
  obtain ⟨fuel, ends⟩ := ends
  simp only [initRequest] at ends
  split at ends
  · cases ends
  · rename_i failed
    exact progresses_of_isSome (Option.isSome_iff_exists.mpr ⟨_, failed⟩)
  · rename_i parsed
    exact progresses_of_isSome (Option.isSome_iff_exists.mpr ⟨_, parsed⟩)

end Wisebot.Query
