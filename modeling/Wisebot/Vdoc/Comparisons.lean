import Wisebot.Vdoc.Comparators

namespace Wisebot.Vdoc

open Std Lib.Comparing Common

/-! When the comparators are the lexicographic order of the values: as long as an
`int` can tell the sign of every difference. -/

universe u

variable {α : Type u}

/-- A comparator agrees with the order of the values, and so is an order. -/
structure Sorts (compare : α → α → Int) (order : α → α → Ordering) (elements : Set α) :
    Prop where
  agrees : ∀ first ∈ elements, ∀ second ∈ elements,
    compare first second = sign (order first second)
  orders : Orders compare elements

theorem fits_iff (difference : Int) :
    Fits difference ↔ (toInt32 difference).sign = difference.sign ∧
      (toInt32 (-difference)).sign = (-difference).sign := by
  rw [Fits, toInt32, toInt32, Int.bmod_def, Int.bmod_def]
  rcases Int.lt_trichotomy difference 0 with negative | zero | positive
  · rw [Int.sign_eq_neg_one_of_neg negative, Int.sign_eq_one_of_pos (a := -difference) (by omega),
      Int.sign_eq_neg_one_iff_neg, Int.sign_eq_one_iff_pos]
    split <;> split <;> omega
  · subst zero
    decide
  · rw [Int.sign_eq_one_of_pos positive, Int.sign_eq_neg_one_of_neg (a := -difference) (by omega),
      Int.sign_eq_neg_one_iff_neg, Int.sign_eq_one_iff_pos]
    split <;> split <;> omega

theorem Field.compareValues_sign_iff (field : Field) (first second : UInt32) :
    field.Told first second ↔
      (compareValues stringCompareFunc (field.value first) (field.value second)).sign =
          sign (field.order first second) ∧
        (compareValues stringCompareFunc (field.value second) (field.value first)).sign =
          sign (field.order second first) := by
  cases field with
  | integer value =>
    rw [Field.Told, fits_iff, Int.neg_sub]
    simp only [Field.value, compareValues, Field.order, compareOn, sign_compare]
  | md5 value =>
    rw [Field.Told, fits_iff, Int.neg_sub]
    simp only [Field.value, compareValues, Field.order, compareOn, sign_compare_nat]
  | string bytes address =>
    have agrees (str1 str2 : Vector UInt8 maxDocattrElementSize) :
        (stringCompareFunc str1.toList str2.toList).sign =
            sign (compare (characters (cString str1.toList))
              (characters (cString str2.toList))) ↔
          (cString str1.toList = cString str2.toList →
            compared maxDocattrElementSize str1.toList =
              compared maxDocattrElementSize str2.toList) := by
      rw [← compared_agrees_iff maxDocattrElementSize _ _ str1.length_toList
        str2.length_toList, stringCompareFunc, hangulStrncmp_sign]
      exact ⟨sign_injective, congrArg sign⟩
    simp only [Field.Told, Field.value, compareValues, Field.order, compareOn, agrees]
    exact ⟨fun told => ⟨told, fun same => (told same.symm).symm⟩, And.left⟩

theorem Field.order_trans (field : Field) : TransCmp field.order := by
  cases field with
  | integer value =>
    exact inferInstanceAs (TransCmp (compareOn fun docid => (value docid).toInt))
  | md5 value => exact inferInstanceAs (TransCmp (compareOn fun docid => (value docid).toNat))
  | string bytes address =>
    exact inferInstanceAs
      (TransCmp (compareOn fun docid => characters (cString (bytes docid).toList)))

theorem trans_of_map {β : Type u} {order : β → β → Ordering} (isTrans : TransCmp order)
    (project : α → β) : TransCmp fun first second => order (project first) (project second) where
  eq_swap := OrientedCmp.eq_swap
  isLE_trans := TransCmp.isLE_trans

section Keys

variable (difference : KeyRule → α → α → Option Int) (keyOrder : KeyRule → α → α → Ordering)

def Agrees (rule : KeyRule) (first second : α) : Prop :=
  ∃ diff, difference rule first second = some diff ∧ diff.sign = sign (keyOrder rule first second)

variable {difference keyOrder}

theorem directed_trans (type : OrderType) {order : α → α → Ordering} (isTrans : TransCmp order) :
    TransCmp (type.directed order) := by
  cases type with
  | asc => exact isTrans
  | desc => exact inferInstanceAs (TransCmp fun first second => order second first)

theorem rulesOrder_trans (isTrans : ∀ rule, TransCmp (keyOrder rule)) (rules : List OrderbyRule) :
    TransCmp (rulesOrder keyOrder rules) := by
  apply lexicographic_trans
  intro order member
  obtain ⟨rule, -, rfl⟩ := List.mem_map.mp member
  exact directed_trans rule.type (isTrans rule.rule)

theorem sign_directed (type : OrderType) {order : α → α → Ordering} [OrientedCmp order]
    (first second : α) :
    sign (type.directed order first second) = sign (order first second) * type.sign := by
  cases type with
  | asc => rw [OrderType.sign, Int.mul_one, OrderType.directed]
  | desc =>
    have swapped : order second first = (order first second).swap := OrientedCmp.eq_swap
    calc
      sign (OrderType.desc.directed order first second) = sign (order first second).swap :=
        congrArg sign swapped
      _ = sign (order first second) * OrderType.desc.sign := by
        rw [sign_swap, OrderType.sign]
        omega

theorem cbOrderby_cons {order : OrderbyRule} {rest : List OrderbyRule} {first second : α}
    {diff : Int} (isDiff : difference order.rule first second = some diff) :
    cbOrderby difference (order :: rest) first second =
      if diff.sign * order.type.sign ≠ 0 then diff.sign * order.type.sign
      else cbOrderby difference rest first second := by
  rw [cbOrderby, isDiff]
  simp only
  rcases Int.lt_trichotomy diff 0 with negative | zero | positive
  · rw [if_pos (by omega), if_neg (by omega), Int.sign_eq_neg_one_of_neg negative]
    cases order.type <;> rfl
  · subst zero
    rw [if_neg (by omega), if_neg (by simp)]
  · rw [if_pos (by omega), if_pos positive, Int.sign_eq_one_of_pos positive]
    cases order.type <;> rfl

theorem cbOrderby_agrees (isTrans : ∀ rule, TransCmp (keyOrder rule)) {rules : List OrderbyRule}
    {first second : α}
    (agrees : ∀ order ∈ rules, Agrees difference keyOrder order.rule first second) :
    cbOrderby difference rules first second = sign (rulesOrder keyOrder rules first second) := by
  induction rules with
  | nil => rfl
  | cons order rest ih =>
    obtain ⟨diff, isDiff, same⟩ := agrees order List.mem_cons_self
    have oriented : OrientedCmp (keyOrder order.rule) := (isTrans order.rule).toOrientedCmp
    have later := ih fun other member => agrees other (List.mem_cons_of_mem order member)
    rw [cbOrderby_cons isDiff, later, rulesOrder, rulesOrder, List.map_cons, lexicographic_cons,
      sign_then, sign_directed, same]

theorem agrees_of_single {rule : KeyRule} {first second : α} {diff : Int}
    (isDiff : difference rule first second = some diff)
    (single : cbOrderby difference [⟨rule, .asc⟩] first second =
      sign (rulesOrder keyOrder [⟨rule, .asc⟩] first second)) :
    Agrees difference keyOrder rule first second := by
  refine ⟨diff, isDiff, ?_⟩
  have alone (value : Int) : (if value ≠ 0 then value else 0) = value := by
    split <;> omega
  have behind : sign (lexicographic [] first second) = 0 := rfl
  rw [cbOrderby_cons isDiff, rulesOrder, List.map_cons, lexicographic_cons, sign_then,
    List.map_nil, behind, alone, cbOrderby, alone, OrderType.sign, Int.mul_one] at single
  exact single

theorem sorts_iff (elements : Set α) (isTrans : ∀ rule, TransCmp (keyOrder rule))
    {keys : Set KeyRule} {told : KeyRule → α → α → Prop}
    (defined : ∀ rule ∈ keys, ∀ first second, ∃ diff, difference rule first second = some diff)
    (isTold : ∀ rule ∈ keys, ∀ first second, told rule first second ↔
      Agrees difference keyOrder rule first second ∧
        Agrees difference keyOrder rule second first) :
    (∀ rules : List OrderbyRule, (∀ order ∈ rules, order.rule ∈ keys) →
        Sorts (cbOrderby difference rules) (rulesOrder keyOrder rules) elements) ↔
      ∀ rule ∈ keys, ∀ first ∈ elements, ∀ second ∈ elements, told rule first second := by
  constructor
  · intro sorts rule isKey first isFirst second isSecond
    have single := sorts [⟨rule, .asc⟩] (by simpa using isKey)
    obtain ⟨diff, isDiff⟩ := defined rule isKey first second
    obtain ⟨diff', isDiff'⟩ := defined rule isKey second first
    exact (isTold rule isKey first second).mpr
      ⟨agrees_of_single isDiff (single.agrees first isFirst second isSecond),
        agrees_of_single isDiff' (single.agrees second isSecond first isFirst)⟩
  · intro allTold rules areKeys
    have agrees : ∀ first ∈ elements, ∀ second ∈ elements,
        cbOrderby difference rules first second =
          sign (rulesOrder keyOrder rules first second) := by
      intro first isFirst second isSecond
      apply cbOrderby_agrees isTrans
      intro order member
      have isKey := areKeys order member
      exact ((isTold _ isKey first second).mp
        (allTold _ isKey first isFirst second isSecond)).1
    have trans := rulesOrder_trans isTrans rules
    exact ⟨agrees, Orders.of_sign agrees⟩

theorem fits_iff_agrees {rule : KeyRule} {first second : α} (number : α → Nat)
    (isDiff : ∀ dest sour, difference rule dest sour = some (toInt32 (number dest - number sour)))
    (isOrder : keyOrder rule = compareOn number) :
    Fits (number first - number second) ↔
      Agrees difference keyOrder rule first second ∧
        Agrees difference keyOrder rule second first := by
  rw [fits_iff, Int.neg_sub, Agrees, Agrees, isOrder]
  simp [isDiff, compareOn, sign_compare_nat]

end Keys

section Fields

variable {fields : Fields}

theorem fieldOrder_trans (name : String) : TransCmp (fieldOrder fields name) := by
  unfold fieldOrder
  split
  · exact { eq_swap := rfl, isLE_trans := fun _ _ => rfl }
  · rename_i field isField
    exact field.order_trans

theorem fieldTold_iff {name : String} (known : (fields name).isSome) (first second : UInt32) :
    fieldTold fields name first second ↔
      (∃ diff, fieldDifference fields name first second = some diff ∧
          diff.sign = sign (fieldOrder fields name first second)) ∧
        ∃ diff, fieldDifference fields name second first = some diff ∧
          diff.sign = sign (fieldOrder fields name second first) := by
  obtain ⟨field, isField⟩ := Option.isSome_iff_exists.mp known
  simp [fieldTold, fieldDifference, Fields.docattr, fieldOrder, isField,
    Field.compareValues_sign_iff]

theorem virtualKeyOrder_trans (rule : KeyRule) : TransCmp (virtualKeyOrder fields rule) := by
  unfold virtualKeyOrder
  split
  · infer_instance
  · infer_instance
  · exact trans_of_map (fieldOrder_trans rule.name) VirtualEntry.docattr

theorem documentKeyOrder_trans (rule : KeyRule) : TransCmp (documentKeyOrder fields rule) := by
  unfold documentKeyOrder
  split
  · infer_instance
  · infer_instance
  · exact trans_of_map (fieldOrder_trans rule.name) DocHit.id

theorem fieldDifference_defined {name : String} (known : (fields name).isSome)
    (dest sour : UInt32) : ∃ diff, fieldDifference fields name dest sour = some diff := by
  obtain ⟨field, isField⟩ := Option.isSome_iff_exists.mp known
  exact ⟨_, by rw [fieldDifference, Fields.docattr, isField]; rfl⟩

theorem virtualDifference_defined {rule : KeyRule} (known : fields.Known rule)
    (dest sour : VirtualEntry) : ∃ diff, virtualDifference fields rule dest sour = some diff := by
  unfold virtualDifference
  split
  · exact ⟨_, rfl⟩
  · exact ⟨_, rfl⟩
  · rename_i isDocattr
    exact fieldDifference_defined (known isDocattr) _ _

theorem documentDifference_defined {rule : KeyRule} (known : fields.Known rule)
    (dest sour : DocHit) : ∃ diff, documentDifference fields rule dest sour = some diff := by
  unfold documentDifference
  split
  · exact ⟨_, rfl⟩
  · exact ⟨_, rfl⟩
  · rename_i isDocattr
    exact fieldDifference_defined (known isDocattr) _ _

theorem virtualTold_iff {rule : KeyRule} (known : fields.Known rule)
    (first second : VirtualEntry) :
    virtualTold fields rule first second ↔
      Agrees (virtualDifference fields) (virtualKeyOrder fields) rule first second ∧
        Agrees (virtualDifference fields) (virtualKeyOrder fields) rule second first := by
  cases kind : rule.type with
  | relevancy =>
    rw [virtualTold, kind]
    exact fits_iff_agrees (fun document : VirtualEntry => document.relevance.toNat)
      (fun _ _ => by simp [virtualDifference, kind])
      (by simp [virtualKeyOrder, kind])
  | did =>
    rw [virtualTold, kind]
    exact fits_iff_agrees (fun document : VirtualEntry => document.id.toNat)
      (fun _ _ => by simp [virtualDifference, kind])
      (by simp [virtualKeyOrder, kind])
  | docattr =>
    simp only [virtualTold, Agrees, virtualDifference, virtualKeyOrder, kind]
    exact fieldTold_iff (known kind) _ _

theorem documentTold_iff {rule : KeyRule} (known : fields.Known rule) (first second : DocHit) :
    documentTold fields rule first second ↔
      Agrees (documentDifference fields) (documentKeyOrder fields) rule first second ∧
        Agrees (documentDifference fields) (documentKeyOrder fields) rule second first := by
  cases kind : rule.type with
  | relevancy =>
    simp only [documentTold, Agrees, documentDifference, documentKeyOrder, kind, compareOn,
      sign_compare_nat]
    exact ⟨fun _ => ⟨⟨_, rfl, rfl⟩, ⟨_, rfl, rfl⟩⟩, fun _ => trivial⟩
  | did =>
    rw [documentTold, kind]
    exact fits_iff_agrees (fun document : DocHit => document.id.toNat)
      (fun _ _ => by simp [documentDifference, kind])
      (by simp [documentKeyOrder, kind])
  | docattr =>
    simp only [documentTold, Agrees, documentDifference, documentKeyOrder, kind]
    exact fieldTold_iff (known kind) _ _

end Fields

/-- The comparators of all rule lists over some keys are the lexicographic order of
the values, and so orders, exactly when an `int` can tell every difference. -/
theorem cbOrderby_exact_iff (fields : Fields) (keys : Set KeyRule) (hits : Set DocHit)
    (documents : Set VirtualEntry) :
    ((∀ rules : List OrderbyRule, (∀ order ∈ rules, order.rule ∈ keys ∧ fields.Known order.rule) →
        Sorts (cbOrderbyDocument fields.docattr stringCompareFunc rules)
          (rulesOrder (documentKeyOrder fields) rules) hits) ↔
      ∀ rule ∈ keys, fields.Known rule → ∀ first ∈ hits, ∀ second ∈ hits,
        documentTold fields rule first second) ∧
    ((∀ rules : List OrderbyRule, (∀ order ∈ rules, order.rule ∈ keys ∧ fields.Known order.rule) →
        Sorts (cbOrderbyVirtualDocument fields rules)
          (rulesOrder (virtualKeyOrder fields) rules) documents) ↔
      ∀ rule ∈ keys, fields.Known rule → ∀ first ∈ documents, ∀ second ∈ documents,
        virtualTold fields rule first second) := by
  have isKnown {rule : KeyRule} (isKey : rule ∈ {rule ∈ keys | fields.Known rule}) :
      fields.Known rule := isKey.2
  have comparator (rules : List OrderbyRule) :
      cbOrderbyDocument fields.docattr stringCompareFunc rules =
        cbOrderby (documentDifference fields) rules := by
    funext dest sour
    exact cbOrderbyDocument_eq fields rules dest sour
  have overHits := sorts_iff hits documentKeyOrder_trans
    (fun rule isKey => documentDifference_defined (isKnown isKey))
    (fun rule isKey => documentTold_iff (isKnown isKey))
  have overDocuments := sorts_iff documents virtualKeyOrder_trans
    (fun rule isKey => virtualDifference_defined (isKnown isKey))
    (fun rule isKey => virtualTold_iff (isKnown isKey))
  simp only [Set.mem_ofPred_eq, and_imp] at overHits overDocuments
  simp only [comparator]
  exact ⟨overHits, overDocuments⟩

/-- Prices of 0, 1500000000 and 3000000000 in an `Integer` field go round in a circle. -/
theorem cbOrderby_price_circle :
    ¬ ∀ (fields : Fields) (rules : List OrderbyRule),
      (∀ order ∈ rules, fields.Known order.rule) →
        Sorts (cbOrderbyDocument fields.docattr stringCompareFunc rules)
            (rulesOrder (documentKeyOrder fields) rules) Set.univ ∧
          Sorts (cbOrderbyVirtualDocument fields rules)
            (rulesOrder (virtualKeyOrder fields) rules) Set.univ := by
  intro claim
  have sorts := (claim
    (fun _ => some (.integer fun docid => 1500000000 * (docid.toNat.toInt64 - 1)))
    [⟨⟨.docattr, "Price"⟩, .asc⟩] (fun _ _ _ => rfl)).1
  have transitive := sorts.orders.transitive ⟨1, 0⟩ trivial ⟨2, 0⟩ trivial ⟨3, 0⟩ trivial
  exact absurd (transitive (by decide +kernel) (by decide +kernel)) (by decide +kernel)

end Wisebot.Vdoc
