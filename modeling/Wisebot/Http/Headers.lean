import Mathlib.Data.List.Induction
import Wisebot.Lib.Decimal
import Wisebot.Lib.Keyed

namespace Wisebot.Http

open Wisebot.Lib

variable {list : List Line} {name : Line} {lines : Line → Option Line}

/-! The list of headers of a request or a response: `mod_http_client/http.c`. A line is
a C string on the heap, a list the chain of its `slist` nodes. -/

abbrev Line := List UInt8

def colon : UInt8 := 58

/-- ASCII letters as `strncasecmp` compares them. -/
def toLower (char : UInt8) : UInt8 := if 65 ≤ char ∧ char ≤ 90 then char + 32 else char

/-- `strncasecmp(first, second, count) == 0` -/
def sameStart (first second : Line) (count : Nat) : Bool :=
  (first.take count).map toLower = (second.take count).map toLower

/-- `separator - fieldName`, or the length of what has no separator. -/
def fieldnameLen (fieldName : Line) : Nat := (fieldName.takeWhile (· ≠ colon)).length

/-- The nodes before `where` and those from `*where` on. -/
def findHeader (fieldName : Line) : List Line → List Line × List Line
  | [] => ([], [])
  | data :: next =>
    if sameStart fieldName data (fieldnameLen fieldName) then ([], data :: next)
    else (data :: (findHeader fieldName next).1, (findHeader fieldName next).2)

/-- The return value 0 or −1, and the list. `allocated` says whether `sb_malloc` finds
room for a node. -/
def setHeaderByLine (allocated : Bool) (list : List Line) (headerLine : Line) :
    Int × List Line :=
  if allocated then
    (0, (findHeader headerLine list).1 ++ headerLine :: (findHeader headerLine list).2.tail)
  else (-1, list)

/-- `"%s: %s\r\n"` -/
def headerLine (fieldName fieldVal : Line) : Line :=
  fieldName ++ [colon, 32] ++ fieldVal ++ [13, 10]

/-- `lineAllocated` says whether there is room for the line. -/
def setHeader (lineAllocated allocated : Bool) (list : List Line) (fieldName fieldVal : Line) :
    Int × List Line :=
  if lineAllocated then setHeaderByLine allocated list (headerLine fieldName fieldVal)
  else (-1, list)

def getHeader (list : List Line) (fieldName : Line) : Option Line :=
  (findHeader fieldName list).2.head?

/-- What is returned, and the list. -/
def popHeader (list : List Line) (fieldName : Line) : Option Line × List Line :=
  match (findHeader fieldName list).2 with
  | [] => (none, list)
  | now :: next => (some now, (findHeader fieldName list).1 ++ next)

inductive HeaderCall
  | setByLine (allocated : Bool) (headerLine : Line)
  | set (lineAllocated allocated : Bool) (fieldName fieldVal : Line)
  | pop (fieldName : Line)

def headerStep (list : List Line) : HeaderCall → List Line
  | .setByLine allocated headerLine => (setHeaderByLine allocated list headerLine).2
  | .set lineAllocated allocated fieldName fieldVal =>
    (setHeader lineAllocated allocated list fieldName fieldVal).2
  | .pop fieldName => (popHeader list fieldName).2

def headerList (calls : List HeaderCall) : List Line := calls.foldl headerStep []

/-! What the list is for: one line for each name, whatever the case of its letters. -/

def nameOf (line : Line) : Line := (line.takeWhile (· ≠ colon)).map toLower

def HeaderCall.stored : HeaderCall → Option Line
  | .setByLine allocated headerLine => if allocated then some headerLine else none
  | .set lineAllocated allocated fieldName fieldVal =>
    if lineAllocated && allocated then some (headerLine fieldName fieldVal) else none
  | .pop _ => none

def HeaderCall.fieldName : HeaderCall → Line
  | .setByLine _ headerLine => headerLine.takeWhile (· ≠ colon)
  | .set _ _ fieldName _ => fieldName
  | .pop fieldName => fieldName

/-- A header name: not empty and without `:`. -/
def IsFieldName (name : Line) : Prop := name ≠ [] ∧ colon ∉ name

def recordCall (lines : Line → Option Line) : HeaderCall → Line → Option Line
  | .pop fieldName => Function.update lines (fieldName.map toLower) none
  | call =>
    match call.stored with
    | none => lines
    | some line => Function.update lines (nameOf line) (some line)

def lastSet (calls : List HeaderCall) (name : Line) : Option Line :=
  calls.foldl recordCall (fun _ => none) (name.map toLower)

/-- The first line of the list that begins with the name, whatever the case of its
letters, has no longer name. -/
def Unshadowed (list : List Line) (name : Line) : Prop :=
  ∀ line, list.find? (fun data => sameStart name data name.length) = some line →
    (nameOf line).length = name.length

instance (list : List Line) (name : Line) : Decidable (Unshadowed list name) :=
  decidable_of_iff
    ((list.find? (fun data => sameStart name data name.length)).all
      (fun line => (nameOf line).length = name.length) = true) (by
    rw [Option.all_eq_true]
    simp [Unshadowed])

theorem toLower_eq_colon_iff (char : UInt8) : toLower char = colon ↔ char = colon := by
  have all : ∀ char : Fin 256, toLower (UInt8.ofFin char) = colon ↔ UInt8.ofFin char = colon := by
    decide +kernel
  exact all char.toFin

theorem takeWhile_map_toLower (line : Line) :
    (line.map toLower).takeWhile (· ≠ colon) = nameOf line := by
  rw [List.takeWhile_map, nameOf]
  congr 1
  apply congrArg (List.takeWhile · line)
  funext char
  simp [toLower_eq_colon_iff]

theorem colon_notMem_map (plain : colon ∉ name) : colon ∉ name.map toLower := by
  intro member
  obtain ⟨char, isChar, lower⟩ := List.mem_map.mp member
  rw [(toLower_eq_colon_iff char).mp lower] at isChar
  exact plain isChar

theorem takeWhile_of_plain (plain : colon ∉ name) :
    name.takeWhile (· ≠ colon) = name := by
  rw [List.takeWhile_eq_self_iff]
  intro char member
  simpa using fun same : char = colon => plain (same ▸ member)

theorem nameOf_of_plain (plain : colon ∉ name) : nameOf name = name.map toLower := by
  rw [nameOf, takeWhile_of_plain plain]

@[simp] theorem length_nameOf (line : Line) : (nameOf line).length = fieldnameLen line := by
  simp [nameOf, fieldnameLen]

theorem nameOf_takeWhile (line : Line) :
    (line.takeWhile (· ≠ colon)).map toLower = nameOf line := rfl

theorem colon_notMem_takeWhile (line : Line) : colon ∉ line.takeWhile (· ≠ colon) := by
  intro member
  simpa using List.mem_takeWhile_imp member

theorem sameStart_fieldName (fieldName data : Line) :
    sameStart fieldName data (fieldnameLen fieldName) =
      sameStart (fieldName.takeWhile (· ≠ colon)) data (fieldnameLen fieldName) := by
  have isPrefix : fieldName.take (fieldnameLen fieldName) = fieldName.takeWhile (· ≠ colon) :=
    (List.prefix_iff_eq_take.mp (List.takeWhile_prefix _)).symm
  have whole : (fieldName.takeWhile (· ≠ colon)).take (fieldnameLen fieldName) =
      fieldName.takeWhile (· ≠ colon) := List.take_of_length_le (Nat.le_refl _)
  rw [sameStart, sameStart, isPrefix, whole]

theorem sameStart_iff (plain : colon ∉ name) (data : Line) :
    sameStart name data name.length = true ↔ name.map toLower <+: nameOf data := by
  have start : sameStart name data name.length = true ↔
      name.map toLower <+: data.map toLower := by
    rw [sameStart, decide_eq_true_eq, List.take_length, List.prefix_iff_eq_take, List.length_map,
      List.map_take]
  rw [start, ← takeWhile_map_toLower]
  constructor
  · rintro ⟨rest, split⟩
    rw [← split, List.takeWhile_append_of_pos]
    · exact List.prefix_append _ _
    · intro char member
      simpa using fun same : char = colon => colon_notMem_map plain (same ▸ member)
  · intro isPrefix
    exact isPrefix.trans (List.takeWhile_prefix _)

theorem findHeader_found (fieldName : Line) (list : List Line) :
    (findHeader fieldName list).2.head? =
      list.find? fun data => sameStart fieldName data (fieldnameLen fieldName) := by
  induction list with
  | nil => rfl
  | cons data next induction =>
    rw [findHeader, List.find?_cons]
    cases sameStart fieldName data (fieldnameLen fieldName) with
    | true => rfl
    | false => exact induction

theorem unshadowed_find {fieldName : Line}
    (unshadowed : Unshadowed list (fieldName.takeWhile (· ≠ colon))) {line : Line}
    (isFound : list.find? (fun data => sameStart fieldName data (fieldnameLen fieldName)) =
      some line) : nameOf line = nameOf fieldName := by
  have start := List.find?_some isFound
  rw [funext (sameStart_fieldName fieldName)] at isFound
  have sameLength := unshadowed line isFound
  simp only [sameStart_fieldName fieldName] at start
  have isPrefix := (sameStart_iff (colon_notMem_takeWhile fieldName) line).mp start
  rw [nameOf_takeWhile] at isPrefix
  exact (isPrefix.eq_of_length ((length_nameOf fieldName).trans sameLength.symm)).symm

theorem sameStart_of_sameName {fieldName line : Line} (same : nameOf line = nameOf fieldName) :
    sameStart fieldName line (fieldnameLen fieldName) = true := by
  rw [sameStart_fieldName]
  refine (sameStart_iff (colon_notMem_takeWhile fieldName) line).mpr ?_
  exact ⟨[], by rw [nameOf_takeWhile, same, List.append_nil]⟩

theorem unshadowed_tail {data : Line} {next : List Line} {fieldName : Line}
    (unshadowed : Unshadowed (data :: next) (fieldName.takeWhile (· ≠ colon)))
    (notStart : sameStart fieldName data (fieldnameLen fieldName) = false) :
    Unshadowed next (fieldName.takeWhile (· ≠ colon)) := by
  intro line isFound
  rw [sameStart_fieldName] at notStart
  refine unshadowed line ?_
  rw [List.find?_cons_of_neg]
  · exact isFound
  · exact Bool.eq_false_iff.mp notStart

theorem nameOf_ne_of_notStart {data fieldName : Line}
    (notStart : sameStart fieldName data (fieldnameLen fieldName) = false) :
    nameOf data ≠ nameOf fieldName := by
  intro same
  rw [sameStart_of_sameName same] at notStart
  cases notStart

/-- What the first line with the name and the first that begins with it have to do with
each other. -/
theorem find_eq_found_iff (list : List Line) (fieldName : Line) :
    list.find? (fun data => sameStart fieldName data (fieldnameLen fieldName)) =
        Keyed.found nameOf list (nameOf fieldName) ↔
      Unshadowed list (fieldName.takeWhile (· ≠ colon)) := by
  constructor
  · intro equal line isFound
    have isFirst : list.find? (fun data => sameStart fieldName data (fieldnameLen fieldName)) =
        some line := by
      rw [funext (sameStart_fieldName fieldName)]
      exact isFound
    rw [equal] at isFirst
    rw [Keyed.key_of_found isFirst, length_nameOf]
    rfl
  · intro unshadowed
    induction list with
    | nil => rfl
    | cons data next induction =>
      cases start : sameStart fieldName data (fieldnameLen fieldName) with
      | true =>
        have isFound : (data :: next).find?
            (fun data => sameStart fieldName data (fieldnameLen fieldName)) = some data :=
          List.find?_cons_of_pos start
        rw [isFound, Keyed.found_cons_same (unshadowed_find unshadowed isFound)]
      | false =>
        rw [List.find?_cons_of_neg (by simp [start]),
          Keyed.found_cons_other (nameOf_ne_of_notStart start)]
        exact induction (unshadowed_tail unshadowed start)

theorem nameOf_head {data : Line} {next : List Line} {fieldName : Line}
    (unshadowed : Unshadowed (data :: next) (fieldName.takeWhile (· ≠ colon)))
    (start : sameStart fieldName data (fieldnameLen fieldName) = true) :
    nameOf data = nameOf fieldName :=
  unshadowed_find unshadowed (List.find?_cons_of_pos start)

theorem setHeaderByLine_put {line : Line}
    (unshadowed : Unshadowed list (line.takeWhile (· ≠ colon))) :
    setHeaderByLine true list line = (0, Keyed.put nameOf line list) := by
  rw [setHeaderByLine, if_pos rfl]
  congr 1
  induction list with
  | nil => rfl
  | cons data next induction =>
    rw [findHeader, Keyed.put]
    cases start : sameStart line data (fieldnameLen line) with
    | true =>
      rw [if_pos rfl, if_pos (nameOf_head unshadowed start)]
      rfl
    | false =>
      rw [if_neg Bool.false_ne_true, if_neg (nameOf_ne_of_notStart start),
        ← induction (unshadowed_tail unshadowed start)]
      rfl

theorem popHeader_list (list : List Line) (fieldName : Line) :
    (popHeader list fieldName).2 =
      (findHeader fieldName list).1 ++ (findHeader fieldName list).2.tail := by
  have whole : ∀ list, (findHeader fieldName list).1 ++ (findHeader fieldName list).2 = list := by
    intro list
    induction list with
    | nil => rfl
    | cons data next induction =>
      rw [findHeader]
      split
      case isTrue => rfl
      case isFalse => exact congrArg (data :: ·) induction
  rw [popHeader]
  cases isFound : (findHeader fieldName list).2 with
  | nil =>
    have all := whole list
    rw [isFound] at all
    exact all.symm
  | cons now next => rfl

theorem popHeader_removed {fieldName : Line}
    (unshadowed : Unshadowed list (fieldName.takeWhile (· ≠ colon))) :
    (popHeader list fieldName).2 = Keyed.removed nameOf list (nameOf fieldName) := by
  rw [popHeader_list]
  induction list with
  | nil => rfl
  | cons data next induction =>
    rw [findHeader, Keyed.removed]
    cases start : sameStart fieldName data (fieldnameLen fieldName) with
    | true =>
      rw [if_pos rfl,
        List.eraseP_cons_of_pos (by simpa using nameOf_head unshadowed start)]
      rfl
    | false =>
      rw [if_neg Bool.false_ne_true,
        List.eraseP_cons_of_neg (by simpa using nameOf_ne_of_notStart start)]
      exact congrArg (data :: ·) (induction (unshadowed_tail unshadowed start))

@[simp] theorem headerList_append (calls : List HeaderCall) (call : HeaderCall) :
    headerList (calls ++ [call]) = headerStep (headerList calls) call := by
  simp [headerList]

structure Represents (list : List Line) (lines : Line → Option Line) : Prop where
  distinct : Keyed.Distinct nameOf list
  found : ∀ key, lines key = Keyed.found nameOf list key

theorem takeWhile_headerLine {fieldName : Line} (plain : colon ∉ fieldName) (fieldVal : Line) :
    (headerLine fieldName fieldVal).takeWhile (· ≠ colon) = fieldName := by
  rw [headerLine, List.append_assoc, List.append_assoc, List.takeWhile_append_of_pos]
  · simp
  · intro char member
    simpa using fun same : char = colon => plain (same ▸ member)

theorem Represents.put (represents : Represents list lines) (line : Line) :
    Represents (Keyed.put nameOf line list) (Function.update lines (nameOf line) (some line)) where
  distinct := represents.distinct.put line
  found := by
    intro key
    rw [Keyed.found_put, Function.update_apply, represents.found key]
    simp only [eq_comm]

theorem Represents.removed (represents : Represents list lines) (unwanted : Line) :
    Represents (Keyed.removed nameOf list unwanted) (Function.update lines unwanted none) where
  distinct := represents.distinct.removed unwanted
  found := by
    intro key
    rw [Keyed.found_removed represents.distinct, Function.update_apply, represents.found key]
    simp only [eq_comm]

theorem Represents.setHeaderByLine (represents : Represents list lines) (allocated : Bool)
    {line : Line} (unshadowed : Unshadowed list (line.takeWhile (· ≠ colon))) :
    Represents (setHeaderByLine allocated list line).2
      (if allocated then Function.update lines (nameOf line) (some line) else lines) := by
  cases allocated with
  | false => exact represents
  | true =>
    rw [setHeaderByLine_put unshadowed, if_pos rfl]
    exact represents.put line

theorem Represents.headerStep (represents : Represents list lines) {call : HeaderCall}
    (named : IsFieldName call.fieldName) (unshadowed : Unshadowed list call.fieldName) :
    Represents (headerStep list call) (recordCall lines call) := by
  cases call with
  | setByLine allocated line =>
    have after := represents.setHeaderByLine allocated unshadowed
    cases allocated with
    | false => exact after
    | true => exact after
  | set lineAllocated allocated fieldName fieldVal =>
    cases lineAllocated with
    | false => exact represents
    | true =>
      rw [← takeWhile_headerLine named.2 fieldVal] at unshadowed
      have after := represents.setHeaderByLine allocated unshadowed
      cases allocated with
      | false => exact after
      | true => exact after
  | pop fieldName =>
    have plain : colon ∉ fieldName := named.2
    have after := represents.removed (nameOf fieldName)
    rw [← popHeader_removed (by rw [takeWhile_of_plain plain]; exact unshadowed),
      nameOf_of_plain plain] at after
    exact after

theorem Represents.run {calls : List HeaderCall}
    (named : ∀ call ∈ calls, IsFieldName call.fieldName)
    (unshadowed : ∀ index, ∀ bound : index < calls.length,
      Unshadowed (headerList (calls.take index)) calls[index].fieldName) :
    Represents (headerList calls) (calls.foldl recordCall fun _ => none) := by
  induction calls using List.reverseRecOn with
  | nil => exact ⟨List.nodup_nil, fun _ => rfl⟩
  | append_singleton calls call induction =>
    have before := induction
      (fun other member => named other (List.mem_append_left _ member))
      (fun index bound => by
        have atIndex := unshadowed index (by simp; omega)
        rw [List.take_append_of_le_length bound.le, List.getElem_append_left bound] at atIndex
        exact atIndex)
    have last := unshadowed calls.length (by simp)
    rw [List.take_left, List.getElem_concat_length rfl] at last
    rw [headerList_append, List.foldl_append]
    exact before.headerStep (named call (by simp)) last

theorem Represents.getHeader_iff (represents : Represents list lines) (named : IsFieldName name) :
    getHeader list name = lines (name.map toLower) ↔ Unshadowed list name := by
  rw [getHeader, findHeader_found, represents.found, ← nameOf_of_plain named.2, find_eq_found_iff,
    takeWhile_of_plain named.2]

instance (name : Line) : Decidable (IsFieldName name) :=
  inferInstanceAs (Decidable (_ ∧ _))

end Wisebot.Http
