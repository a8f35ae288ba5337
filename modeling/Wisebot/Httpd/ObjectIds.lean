import Wisebot.Rmac.Analysis

namespace Wisebot.Httpd

open Wisebot.Rmac

/-! Object ids on their way from the query of a request to the documents:
`standard_handler` and the handlers of `document_sbhandler.c`. -/

/-- The byte at an index of a C string; behind its end the terminator. -/
def charAt (buffer : List UInt8) (index : Nat) : UInt8 := buffer.getD index 0

/-- An escape at `src[x]`. -/
def isEscape (n : Nat) (buffer : List UInt8) (x : Nat) : Bool :=
  charAt buffer x = 37 && 2 ≤ n - x && isXDigit (charAt buffer (x + 1)) &&
    isXDigit (charAt buffer (x + 2))

/-- The byte that is written for `src[x]`. -/
def decodedByte (n : Nat) (buffer : List UInt8) (x : Nat) : UInt8 :=
  if charAt buffer x = 43 then 32
  else if isEscape n buffer x then hex (charAt buffer (x + 1)) * 16 + hex (charAt buffer (x + 2))
  else charAt buffer x

/-- Where the loop goes on. -/
def nextChar (n : Nat) (buffer : List UInt8) (x : Nat) : Nat :=
  if isEscape n buffer x then x + 3 else x + 1

/-- The loop of `decodencpy(buffer, buffer, n)`, with what `y` is at its end. -/
def decodeLoop (n : Nat) : (rounds : Nat) → (buffer : List UInt8) → (x y : Nat) →
    List UInt8 × Nat
  | 0, buffer, _, y => (buffer, y)
  | rounds + 1, buffer, x, y =>
    if charAt buffer x = 0 then (buffer, y)
    else if n ≤ nextChar n buffer x then (buffer.set y (decodedByte n buffer x), y + 1)
    else
      decodeLoop n rounds (buffer.set y (decodedByte n buffer x)) (nextChar n buffer x) (y + 1)

/-- The C string after `decodencpy(text, text, strlen(text))`. -/
def decodeInPlace (text : List UInt8) : List UInt8 :=
  let decoded := decodeLoop text.length text.length text 0 0
  cut (if decoded.2 < text.length then decoded.1.set decoded.2 0 else decoded.1)

theorem charAt_add (buffer : List UInt8) (x offset : Nat) :
    charAt buffer (x + offset) = charAt (buffer.drop x) offset := by
  simp [charAt, List.getD_eq_getElem?_getD]

def startsEscape (text : List UInt8) : Bool := text.head? = some 37 && startsHex text.tail

theorem decodencpy_step (first : UInt8) (rest : List UInt8) :
    decodencpy (first :: rest) =
      if startsEscape (first :: rest) then
        (hex (charAt rest 0) * 16 + hex (charAt rest 1)) :: decodencpy (rest.drop 2)
      else plusToSpace first :: decodencpy rest := by
  rcases rest with _ | ⟨second, _ | ⟨third, rest⟩⟩
  · simp [startsEscape, startsHex, decodencpy]
  · simp [startsEscape, startsHex, decodencpy]
  · by_cases escape : first = 37 ∧ isXDigit second = true ∧ isXDigit third = true
    · rw [decodencpy, if_pos escape, if_pos (by simp [startsEscape, startsHex, escape])]
      rfl
    · rw [decodencpy, if_neg escape, if_neg (by simpa [startsEscape, startsHex] using escape)]

theorem isEscape_eq {buffer : List UInt8} {x n : Nat} {first : UInt8} {rest : List UInt8}
    (isRest : buffer.drop x = first :: rest) (length : buffer.length = n) :
    isEscape n buffer x = startsEscape (first :: rest) := by
  have isFirst := charAt_add buffer x 0
  have room : n - x = rest.length + 1 := by
    rw [← length, ← List.length_drop, isRest, List.length_cons]
  have noDigit : isXDigit 0 = false := by decide
  rw [isRest, Nat.add_zero] at isFirst
  rw [isEscape, isFirst, charAt_add, charAt_add, isRest, room]
  rcases rest with _ | ⟨second, _ | ⟨third, rest⟩⟩
  · simp [startsEscape, startsHex, charAt, noDigit]
  · simp [startsEscape, startsHex, charAt, noDigit]
  · simp [startsEscape, startsHex, charAt, Bool.and_assoc]

theorem length_of_startsEscape {first : UInt8} {rest : List UInt8}
    (escape : startsEscape (first :: rest) = true) : first = 37 ∧ 2 ≤ rest.length := by
  rcases rest with _ | ⟨second, _ | ⟨third, rest⟩⟩
  · simp [startsEscape, startsHex] at escape
  · simp [startsEscape, startsHex] at escape
  · simp only [startsEscape, List.head?_cons, Option.some.injEq, Bool.and_eq_true,
      decide_eq_true_eq] at escape
    exact ⟨escape.1, by simp⟩

theorem decodeLoop_char {buffer : List UInt8} {x n : Nat} {first : UInt8} {rest : List UInt8}
    (isRest : buffer.drop x = first :: rest) (length : buffer.length = n) :
    ∃ skip, nextChar n buffer x = x + (skip + 1) ∧ skip ≤ rest.length ∧
      decodencpy (first :: rest) = decodedByte n buffer x :: decodencpy (rest.drop skip) := by
  have same := isEscape_eq isRest length
  have isFirst := charAt_add buffer x 0
  rw [isRest, Nat.add_zero] at isFirst
  have step := decodencpy_step first rest
  by_cases escape : startsEscape (first :: rest) = true
  · obtain ⟨isPercent, more⟩ := length_of_startsEscape escape
    have notPlus : charAt buffer x ≠ 43 := by
      rw [isFirst]
      show first ≠ 43
      rw [isPercent]
      decide
    rw [if_pos escape] at step
    rw [escape] at same
    refine ⟨2, by rw [nextChar, if_pos same], more, ?_⟩
    rw [decodedByte, if_neg notPlus, if_pos same, charAt_add, charAt_add, isRest, step]
    rfl
  · rw [if_neg escape] at step
    rw [Bool.eq_false_iff.mpr escape] at same
    have noEscape : ¬ isEscape n buffer x = true := Bool.eq_false_iff.mp same
    refine ⟨0, by rw [nextChar, if_neg noEscape], Nat.zero_le _, ?_⟩
    rw [decodedByte, if_neg noEscape, isFirst, step]
    rfl

theorem take_set_succ {buffer : List UInt8} {y : Nat} (inside : y < buffer.length)
    (byte : UInt8) : (buffer.set y byte).take (y + 1) = buffer.take y ++ [byte] := by
  rw [List.take_add_one, List.take_set_of_le (Nat.le_refl _), List.getElem?_set_self inside]
  rfl

theorem decodeLoop_spec {n : Nat} (rounds : Nat) {buffer : List UInt8} {x y : Nat}
    {rest : List UInt8} (isRest : buffer.drop x = rest) (length : buffer.length = n)
    (behind : y ≤ x) (noNul : 0 ∉ rest) (enough : rest.length ≤ rounds) :
    (decodeLoop n rounds buffer x y).1.length = n ∧
      (decodeLoop n rounds buffer x y).2 = y + (decodencpy rest).length ∧
      (decodeLoop n rounds buffer x y).1.take (y + (decodencpy rest).length) =
        buffer.take y ++ decodencpy rest := by
  induction rounds generalizing buffer x y rest with
  | zero =>
    obtain rfl : rest = [] := List.length_eq_zero_iff.mp (Nat.le_zero.mp enough)
    exact ⟨length, rfl, by simp [decodeLoop, decodencpy]⟩
  | succ rounds induction =>
    have isFirst := charAt_add buffer x 0
    rw [isRest, Nat.add_zero] at isFirst
    rw [decodeLoop]
    cases rest with
    | nil =>
      have ended : charAt buffer x = 0 := isFirst
      rw [if_pos ended]
      exact ⟨length, rfl, by simp [decodencpy]⟩
    | cons first rest =>
      have notEnded : charAt buffer x ≠ 0 := by
        rw [isFirst]
        rintro (rfl : first = 0)
        exact noNul List.mem_cons_self
      have room : buffer.length - x = rest.length + 1 := by
        rw [← List.length_drop, isRest, List.length_cons]
      rw [List.length_cons] at enough
      have inside : y < buffer.length := by omega
      obtain ⟨skip, isNext, within, decoded⟩ := decodeLoop_char isRest length
      have later : (buffer.set y (decodedByte n buffer x)).drop (x + (skip + 1)) =
          rest.drop skip := by
        rw [List.drop_set_of_lt (by omega), ← List.drop_drop, isRest]
        rfl
      rw [if_neg notEnded, isNext, decoded, List.length_cons]
      split
      case isTrue ended =>
        have none : rest.drop skip = [] := List.drop_eq_nil_of_le (by omega)
        rw [none]
        exact ⟨by simp [length], rfl, take_set_succ inside _⟩
      case isFalse =>
        obtain ⟨sameLength, isEnd, taken⟩ := induction later (by simp [length])
          (show y + 1 ≤ x + (skip + 1) by omega)
          (fun member => noNul (List.mem_cons_of_mem _ (List.mem_of_mem_drop member)))
          (by rw [List.length_drop]; omega)
        have shift : y + ((decodencpy (rest.drop skip)).length + 1) =
            y + 1 + (decodencpy (rest.drop skip)).length := by omega
        refine ⟨sameLength, by rw [isEnd, shift], ?_⟩
        rw [shift, taken, take_set_succ inside, List.append_assoc]
        rfl

theorem cut_append_zero (text rest : List UInt8) : cut (text ++ 0 :: rest) = cut text := by
  induction text with
  | nil => rfl
  | cons first text induction =>
    rw [List.cons_append, cut, cut, List.takeWhile_cons, List.takeWhile_cons]
    split
    case isTrue => exact congrArg (first :: ·) induction
    case isFalse => rfl

theorem decodeInPlace_eq {text : List UInt8} (noNul : 0 ∉ text) :
    decodeInPlace text = cut (decodencpy text) := by
  have whole : text.drop 0 = text := rfl
  obtain ⟨length, isEnd, taken⟩ :=
    decodeLoop_spec text.length whole rfl (Nat.le_refl 0) noNul (Nat.le_refl _)
  rw [Nat.zero_add] at isEnd taken
  rw [List.take_zero, List.nil_append] at taken
  rw [decodeInPlace, isEnd]
  split
  case isTrue shorter =>
    rw [List.set_eq_take_append_cons_drop, if_pos (by rw [length]; exact shorter), taken,
      cut_append_zero]
  case isFalse longer =>
    have most := decodencpy_length_le text
    rw [List.take_of_length_le (by omega)] at taken
    rw [taken]

/-- `OID` -/
def oidKey : List UInt8 := [79, 73, 68]

/-- `DID` -/
def didKey : List UInt8 := [68, 73, 68]

def documentSize : Nat := 10000 * 1024

/-- What `get_docid` returns. -/
inductive Lookup
  | failed
  | notRegistered
  | registered (docid : Int)

/-- What the handlers call: the ids by OID, whether the attributes of a document are
found, whether its `Delete` is set, and the documents. -/
structure Services where
  getDocid : List UInt8 → Lookup
  docattrPtrGet : Int → Bool
  setDelete : Int → Bool
  getXmldoc : Int → Option (List UInt8)

inductive Effect
  | lookUp (oid : List UInt8)
  | markDeleted (docid : Int)
  | register (oid document : List UInt8)
  | write (document : List UInt8)

/-- The entries of `parameters_in`. -/
abbrev Parameters := List (List UInt8 × List UInt8)

section Handlers

variable (services : Services) (parameters : Parameters)

/-- An argument that is NULL or empty. -/
def isMissing (argument : Option (List UInt8)) : Bool := argument.getD [] = []

def markDeleted (docid : Int) : List Effect :=
  if services.docattrPtrGet docid && services.setDelete docid then [.markDeleted docid] else []

/-- The end of `document_delete` without a DID. -/
def deleteByOid (oid : List UInt8) : Bool × List Effect :=
  match services.getDocid oid with
  | .failed => (true, [.lookUp oid])
  | .notRegistered => (true, [.lookUp oid])
  | .registered docid => (true, .lookUp oid :: markDeleted services docid)

/-- `SUCCESS` or `FAIL`, and the effects. -/
def documentDelete : Bool × List Effect :=
  let oid := tableGet parameters oidKey
  let did := tableGet parameters didKey
  if isMissing oid && isMissing did then (false, [])
  else
    match did with
    | some did => (true, markDeleted services (Cdm.atoi did))
    | none => deleteByOid services (decodeInPlace (oid.getD []))

/-- The end of `document_select`. -/
def writeDocument (docid : Int) : Bool × List Effect :=
  match services.getXmldoc docid with
  | none => (false, [])
  | some document => (true, [.write document])

/-- The end of `document_select` without a DID. -/
def selectByOid (oid : List UInt8) : Bool × List Effect :=
  match services.getDocid oid with
  | .failed => (false, [.lookUp oid])
  | .notRegistered => (false, [.lookUp oid])
  | .registered docid =>
    ((writeDocument services docid).1, .lookUp oid :: (writeDocument services docid).2)

def documentSelect : Bool × List Effect :=
  let oid := tableGet parameters oidKey
  let did := tableGet parameters didKey
  if isMissing oid && isMissing did then (false, [])
  else
    match did with
    | some did => writeDocument services (Cdm.atoi did)
    | none => selectByOid services (decodeInPlace (oid.getD []))

/-- The document in the body of a request: what is behind the first `=` of the decoded
text, if that is among the first 21 bytes. -/
def postedDocument (body : List UInt8) : Option (List UInt8) :=
  if documentSize ≤ body.length then none
  else
    match (decodeInPlace (cut body)).dropWhile (· ≠ 61) with
    | [] => none
    | _ :: document =>
      if 20 < ((decodeInPlace (cut body)).takeWhile (· ≠ 61)).length then none
      else some document

/-- The old document of the OID is deleted first. `body` is what is posted, if it can be
read. -/
def documentInsert (body : Option (List UInt8)) : Bool × List Effect :=
  let oid := tableGet parameters oidKey
  if isMissing oid then (false, [])
  else
    let first := match services.getDocid (oid.getD []) with
      | .registered _ => (documentDelete services parameters).2
      | _ => []
    match body.bind postedDocument with
    | none => (false, .lookUp (oid.getD []) :: first)
    | some document =>
      (true, .lookUp (oid.getD []) :: first ++
        [.register (decodeInPlace (oid.getD [])) document])

end Handlers

/-- Letters and digits as they are, every other byte as `%` and two hexadecimal digits. -/
inductive Encodes : List UInt8 → List UInt8 → Prop
  | nil : Encodes [] []
  | literal {byte : UInt8} {oid value : List UInt8} (plain : isAlnum byte = true)
      (rest : Encodes oid value) : Encodes (byte :: oid) (byte :: value)
  | escape {byte high low : UInt8} {oid value : List UInt8} (special : isAlnum byte = false)
      (isHigh : isXDigit high = true) (isLow : isXDigit low = true)
      (isByte : hex high * 16 + hex low = byte) (rest : Encodes oid value) :
      Encodes (byte :: oid) (37 :: high :: low :: value)

/-- The parts of a query between the `&`. -/
def queryTokens (query : List UInt8) : List (List UInt8) := (query.splitOn 38).filter (· ≠ [])

/-- No key of these parts is this one, whatever the case of its letters. -/
def Lacks (key : List UInt8) (parts : List (List UInt8)) : Prop :=
  ∀ token ∈ parts,
    (parameter token).all (fun entry => entry.1.map toLower ≠ key.map toLower) = true

instance (key : List UInt8) (parts : List (List UInt8)) : Decidable (Lacks key parts) :=
  inferInstanceAs (Decidable (∀ _ ∈ parts, _))

/-- The last `OID` of the query is the encoded id, and there is no `DID`. -/
structure Carries (query oid : List UInt8) : Prop where
  isOid : ∃ before value after, queryTokens query = before ++ (oidKey ++ 61 :: value) :: after ∧
    Encodes oid value ∧ Lacks oidKey after
  noDid : Lacks didKey (queryTokens query)

theorem Encodes.decodencpy {oid value : List UInt8} (encodes : Encodes oid value) :
    decodencpy value = oid := by
  induction encodes with
  | nil => rfl
  | @literal byte oid value plain _ induction =>
    have notPercent : byte ≠ 37 := by
      rintro rfl
      exact absurd plain (by decide)
    have notPlus : byte ≠ 43 := by
      rintro rfl
      exact absurd plain (by decide)
    rw [decodencpy_cons notPercent, induction, plusToSpace, if_neg notPlus]
  | @escape byte high low oid value special isHigh isLow isByte _ induction =>
    rw [Rmac.decodencpy, if_pos ⟨rfl, isHigh, isLow⟩, isByte, induction]

theorem cut_of_noNul {text : List UInt8} (noNul : 0 ∉ text) : cut text = text := by
  rw [cut, List.takeWhile_eq_self_iff]
  intro byte member
  exact decide_eq_true fun zero => noNul (zero ▸ member)

theorem tableGet_none {parts : List (List UInt8)} {key : List UInt8} (lacks : Lacks key parts) :
    tableGet (parts.filterMap parameter) key = none := by
  rw [tableGet, Option.map_eq_none_iff, List.find?_eq_none]
  intro entry member
  rw [List.mem_reverse, List.mem_filterMap] at member
  obtain ⟨token, isToken, isEntry⟩ := member
  have other := lacks token isToken
  rw [isEntry] at other
  simpa using other

theorem Carries.parameters {query oid : List UInt8} (carries : Carries query oid)
    (noNul : 0 ∉ oid) :
    tableGet (parametersIn query) oidKey = some oid ∧
      tableGet (parametersIn query) didKey = none := by
  refine ⟨?_, tableGet_none carries.noDid⟩
  obtain ⟨before, value, after, split, encodes, lacks⟩ := carries.isOid
  have isParameter : parameter (oidKey ++ 61 :: value) = some (oidKey, oid) := by
    have decoded : parameter (oidKey ++ 61 :: value) =
        some (cut (decodencpy oidKey), cut (decodencpy value)) := rfl
    rw [decoded, encodes.decodencpy, cut_of_noNul noNul]
    rfl
  have isNone : (after.filterMap parameter).reverse.find?
      (fun entry => entry.1.map toLower = oidKey.map toLower) = none :=
    Option.map_eq_none_iff.mp (tableGet_none lacks)
  have table : parametersIn query = before.filterMap parameter ++
      (oidKey, oid) :: after.filterMap parameter := by
    show (queryTokens query).filterMap parameter = _
    rw [split, List.filterMap_append, List.filterMap_cons_some isParameter]
  rw [table, tableGet, List.reverse_append, List.reverse_cons, List.append_assoc,
    List.find?_append, isNone]
  rfl

def Effect.oid : Effect → Option (List UInt8)
  | .lookUp oid => some oid
  | .register oid _ => some oid
  | .markDeleted _ => none
  | .write _ => none

def Effect.registered : Effect → Option (List UInt8)
  | .register oid _ => some oid
  | .lookUp _ => none
  | .markDeleted _ => none
  | .write _ => none

inductive Handler
  | insert (body : Option (List UInt8))
  | delete
  | select

def Handler.run (services : Services) (query : List UInt8) : Handler → Bool × List Effect
  | .insert body => documentInsert services (parametersIn query) body
  | .delete => documentDelete services (parametersIn query)
  | .select => documentSelect services (parametersIn query)

def Handler.oids (services : Services) (query : List UInt8) (handler : Handler) :
    List (List UInt8) :=
  (handler.run services query).2.filterMap Effect.oid

section Requests

variable {services : Services} {parameters : Parameters} {oid : List UInt8}

@[simp] theorem oids_markDeleted (docid : Int) :
    (markDeleted services docid).filterMap Effect.oid = [] := by
  rw [markDeleted]
  split
  case isTrue => rfl
  case isFalse => rfl

@[simp] theorem registered_markDeleted (docid : Int) :
    (markDeleted services docid).filterMap Effect.registered = [] := by
  rw [markDeleted]
  split
  case isTrue => rfl
  case isFalse => rfl

@[simp] theorem oids_writeDocument (docid : Int) :
    (writeDocument services docid).2.filterMap Effect.oid = [] := by
  rw [writeDocument]
  cases services.getXmldoc docid with
  | none => rfl
  | some document => rfl

structure Named (parameters : Parameters) (oid : List UInt8) : Prop where
  isOid : tableGet parameters oidKey = some oid
  noDid : tableGet parameters didKey = none
  nonempty : oid ≠ []

theorem Named.notMissing (named : Named parameters oid) :
    isMissing (tableGet parameters oidKey) = false := by
  rw [isMissing, named.isOid]
  exact decide_eq_false named.nonempty

theorem deleteByOid_eq (oid : List UInt8) :
    (deleteByOid services oid).2.filterMap Effect.oid = [oid] ∧
      (deleteByOid services oid).2.filterMap Effect.registered = [] := by
  rw [deleteByOid]
  cases services.getDocid oid with
  | failed => exact ⟨rfl, rfl⟩
  | notRegistered => exact ⟨rfl, rfl⟩
  | registered docid =>
    exact ⟨congrArg (oid :: ·) (oids_markDeleted docid), registered_markDeleted docid⟩

theorem selectByOid_eq (oid : List UInt8) :
    (selectByOid services oid).2.filterMap Effect.oid = [oid] := by
  rw [selectByOid]
  cases services.getDocid oid with
  | failed => rfl
  | notRegistered => rfl
  | registered docid => exact congrArg (oid :: ·) (oids_writeDocument docid)

theorem Named.documentDelete_eq (named : Named parameters oid) :
    documentDelete services parameters = deleteByOid services (decodeInPlace oid) := by
  rw [documentDelete, named.notMissing, Bool.false_and, if_neg Bool.false_ne_true, named.noDid,
    named.isOid, Option.getD_some]

theorem Named.documentSelect_eq (named : Named parameters oid) :
    documentSelect services parameters = selectByOid services (decodeInPlace oid) := by
  rw [documentSelect, named.notMissing, Bool.false_and, if_neg Bool.false_ne_true, named.noDid,
    named.isOid, Option.getD_some]

/-- What `document_insert` does before the body is read. -/
def beforeBody (services : Services) (parameters : Parameters) (oid : List UInt8) :
    List Effect :=
  .lookUp oid :: match services.getDocid oid with
    | .registered _ => (documentDelete services parameters).2
    | _ => []

theorem Named.documentInsert_eq (named : Named parameters oid) (body : Option (List UInt8)) :
    (documentInsert services parameters body).2 =
      beforeBody services parameters oid ++
        ((body.bind postedDocument).map (Effect.register (decodeInPlace oid))).toList := by
  rw [documentInsert, named.notMissing, if_neg Bool.false_ne_true, named.isOid,
    Option.getD_some]
  cases body.bind postedDocument with
  | none => exact (List.append_nil _).symm
  | some document => rfl

theorem Named.beforeBody_eq (named : Named parameters oid) :
    (∀ key ∈ (beforeBody services parameters oid).filterMap Effect.oid,
      key = oid ∨ key = decodeInPlace oid) ∧
      (beforeBody services parameters oid).filterMap Effect.registered = [] := by
  obtain ⟨isDecoded, isNone⟩ := @deleteByOid_eq services (decodeInPlace oid)
  rw [beforeBody, named.documentDelete_eq]
  cases services.getDocid oid with
  | failed => exact ⟨by simp [Effect.oid], rfl⟩
  | notRegistered => exact ⟨by simp [Effect.oid], rfl⟩
  | registered docid =>
    refine ⟨?_, isNone⟩
    rw [List.filterMap_cons_some (by rfl : Effect.oid (.lookUp oid) = some oid), isDecoded]
    simp

theorem Named.oids_insert (named : Named parameters oid) (body : Option (List UInt8)) :
    ∀ key ∈ (documentInsert services parameters body).2.filterMap Effect.oid,
      key = oid ∨ key = decodeInPlace oid := by
  intro key member
  rw [named.documentInsert_eq, List.filterMap_append, List.mem_append] at member
  rcases member with before | registers
  · exact named.beforeBody_eq.1 key before
  · cases isPosted : body.bind postedDocument with
    | none =>
      rw [isPosted] at registers
      cases registers
    | some document =>
      rw [isPosted] at registers
      exact .inr (List.mem_singleton.mp registers)

/-- `document_insert` registers nothing, or the document of the body under the OID that
is decoded once more. -/
theorem Named.registered_insert (named : Named parameters oid) (body : Option (List UInt8)) :
    (documentInsert services parameters body).2.filterMap Effect.registered =
      if (body.bind postedDocument).isSome then [decodeInPlace oid] else [] := by
  rw [named.documentInsert_eq, List.filterMap_append, named.beforeBody_eq.2]
  cases body.bind postedDocument with
  | none => rfl
  | some document => rfl

end Requests

theorem Carries.named {query oid : List UInt8} (carries : Carries query oid) (noNul : 0 ∉ oid)
    (nonempty : oid ≠ []) : Named (parametersIn query) oid where
  isOid := (carries.parameters noNul).1
  noDid := (carries.parameters noNul).2
  nonempty := nonempty

theorem decodeInPlace_iff {oid : List UInt8} (noNul : 0 ∉ oid) :
    decodeInPlace oid = oid ↔ Plain oid := by
  rw [decodeInPlace_eq noNul]
  exact cut_decodencpy_iff noNul

theorem Carries.oids_plain {query oid : List UInt8} (carries : Carries query oid)
    (noNul : 0 ∉ oid) (nonempty : oid ≠ []) (plain : Plain oid) (services : Services)
    (handler : Handler) : ∀ key ∈ handler.oids services query, key = oid := by
  have named := carries.named noNul nonempty
  have same := (decodeInPlace_iff noNul).mpr plain
  intro key member
  cases handler with
  | insert body =>
    rcases named.oids_insert body key member with isOid | isDecoded
    · exact isOid
    · exact isDecoded.trans same
  | delete =>
    rw [Handler.oids, Handler.run, named.documentDelete_eq, (deleteByOid_eq _).1, same] at member
    exact List.mem_singleton.mp member
  | select =>
    rw [Handler.oids, Handler.run, named.documentSelect_eq, selectByOid_eq, same] at member
    exact List.mem_singleton.mp member

def noDocuments : Services :=
  ⟨fun _ => .notRegistered, fun _ => true, fun _ => true, fun _ => none⟩

theorem carries_dash : Carries [79, 73, 68, 61, 97, 37, 50, 100] [97, 45] where
  isOid := ⟨[], [97, 37, 50, 100], [], by decide +kernel,
    .literal (by decide) (.escape (by decide) (by decide) (by decide) (by decide) .nil),
    by decide⟩
  noDid := by decide +kernel

end Wisebot.Httpd
