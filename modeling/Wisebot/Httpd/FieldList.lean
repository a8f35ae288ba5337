import Wisebot.Cdm.Reading

namespace Wisebot.Httpd.FieldList

/-! The fields of an analysis request: the loop of `document_ma` in `document_sbhandler.c`
over `get_field_and_ma_id_from_meta_data`. The metadata are their bytes before the NUL, and
the request is without `rawkomatext`. -/

/-- `MAX_FIELD_NAME_LEN`, the size of `field_name`. -/
def maxFieldNameLen : Nat := 256

/-- `STRING_SIZE`, the size of `path`. -/
def stringSize : Nat := 256

/-- `"/Document/"` -/
def documentPath : List UInt8 := [47, 68, 111, 99, 117, 109, 101, 110, 116, 47]

/-- `atol`, cut to an `int`. -/
def atol (text : List UInt8) : Int := Cdm.atoi text

/-- What `get_field_and_ma_id_from_meta_data` leaves in `field_name` and `id`, and the pointer
that it returns, which is `none` behind the NUL. -/
structure MetaData where
  fieldName : List UInt8
  id : Int
  next : Option (List UInt8)

/-- `none` is a write outside of `field_name` or `ids`, or a read behind the NUL. -/
def getFieldAndMaId (sptr : List UInt8) : Option MetaData :=
  let fieldName := sptr.takeWhile (· ≠ 58)
  if fieldName.length < maxFieldNameLen then
    (sptr.dropWhile (· ≠ 58)).tail?.bind fun sptr =>
      let ids := (sptr.takeWhile (· ≠ 94)).take maxFieldNameLen
      if ids.length < 4 then some ⟨fieldName, atol ids, (sptr.drop ids.length).tail?⟩ else none
  else none

inductive Outcome where
  | missing
  | empty
  | failed
  | analyzed
deriving DecidableEq

/-- The field of a round. -/
structure Visit where
  path : List UInt8
  fieldId : Int
  maId : Int
deriving DecidableEq

structure Round where
  visit : Visit
  given : Bool
  next : Option (List UInt8)

def readField (fieldId : Int) (p : List UInt8) : Option Round :=
  (getFieldAndMaId p).bind fun read =>
    let fid := (read.fieldName.dropWhile (· ≠ 35)).tail?
    let path := documentPath ++ read.fieldName.takeWhile (· ≠ 35)
    if (fid.getD []).length < 3 ∧ path.length < stringSize then
      some ⟨⟨path, (fid.map atol).getD fieldId, read.id⟩, fid.isSome, read.next⟩
    else none

/-- What `field_id` is for the next round. -/
def nextFieldId (outcome : Outcome) (given : Bool) (fieldId : Int) : Int :=
  if given = true ∧ (outcome = .missing ∨ outcome = .empty) then fieldId else fieldId + 1

/-- The loop from `p` on, with the fields that are visited. -/
def maLoop (outcome : Nat → Outcome) :
    (rounds round : Nat) → (fieldId : Int) → (p : List UInt8) → Option (List Visit)
  | 0, _, _, _ => none
  | rounds + 1, round, fieldId, p =>
    (readField fieldId p).bind fun read =>
      if outcome round = .failed then some [read.visit]
      else read.next.bind fun p =>
        if p = [] then some [read.visit]
        else
          (maLoop outcome rounds (round + 1)
            (nextFieldId (outcome round) read.given read.visit.fieldId) p).map (read.visit :: ·)

def documentMa (outcome : Nat → Outcome) (metadata : List UInt8) : Option (List Visit) :=
  maLoop outcome (metadata.length + 1) 0 0 metadata

/-- `name[#id]:ma` -/
structure Entry where
  name : List UInt8
  id : Option (List UInt8)
  ma : List UInt8
  isName : ∀ byte ∈ name, byte ≠ 58 ∧ byte ≠ 35
  isId : ∀ byte ∈ id.getD [], byte ≠ 58
  isMa : ∀ byte ∈ ma, byte ≠ 94

namespace Entry

def field (entry : Entry) : List UInt8 := entry.name ++ (entry.id.map (35 :: ·)).getD []

def text (entry : Entry) : List UInt8 := entry.field ++ 58 :: entry.ma

def visit (entry : Entry) (fieldId : Int) : Visit where
  path := documentPath ++ entry.name
  fieldId := (entry.id.map atol).getD fieldId
  maId := atol entry.ma

/-- The parts of the entry have room in `path`, `fid` and `ids`. -/
def Fits (entry : Entry) : Prop :=
  entry.name.length < 246 ∧ (entry.id.getD []).length < 3 ∧ entry.ma.length < 4

instance (entry : Entry) : Decidable entry.Fits := inferInstanceAs (Decidable (_ ∧ _))

end Entry

/-- A list of fields, with or without a `'^'` behind the last one. -/
def listText (isClosed : Bool) : List Entry → List UInt8
  | [] => []
  | [entry] => entry.text ++ if isClosed then [94] else []
  | entry :: entries => entry.text ++ 94 :: listText isClosed entries

/-- The fields of a list up to one whose analysis fails, with the given ids, and elsewhere
the id behind the previous one. -/
def expected (outcome : Nat → Outcome) : (round : Nat) → (fieldId : Int) → List Entry → List Visit
  | _, _, [] => []
  | round, fieldId, entry :: entries =>
    let visit := entry.visit fieldId
    if outcome round = .failed then [visit]
    else visit :: expected outcome (round + 1) (visit.fieldId + 1) entries

def visited (outcome : Nat → Outcome) : (round : Nat) → (fieldId : Int) → List Entry → List Visit
  | _, _, [] => []
  | round, fieldId, entry :: entries =>
    let visit := entry.visit fieldId
    if outcome round = .failed then [visit]
    else
      visit :: visited outcome (round + 1)
        (nextFieldId (outcome round) entry.id.isSome visit.fieldId) entries

/-- Each field that is read is an entry with its `'^'` whose parts have room; behind a failing
analysis nothing is read, and its own `'^'` may be missing. -/
inductive Complete (outcome : Nat → Outcome) : (round : Nat) → List UInt8 → Prop
  | failed {round : Nat} {entry : Entry} {rest : List UInt8} (fits : entry.Fits)
      (isFailed : outcome round = .failed) (ends : ∀ byte ∈ rest.head?, byte = 94) :
      Complete outcome round (entry.text ++ rest)
  | last {round : Nat} {entry : Entry} (fits : entry.Fits) :
      Complete outcome round (entry.text ++ [94])
  | next {round : Nat} {entry : Entry} {rest : List UInt8} (fits : entry.Fits)
      (more : rest ≠ []) (others : Complete outcome (round + 1) rest) :
      Complete outcome round (entry.text ++ 94 :: rest)

/-- No field with a given id that is missing or empty comes before one without an id. -/
def KeepsIds (outcome : Nat → Outcome) : (round : Nat) → List Entry → Prop
  | _, [] => True
  | round, entry :: entries =>
    outcome round ≠ .failed →
      (entry.id ≠ none → outcome round = .missing ∨ outcome round = .empty →
        ∀ next ∈ entries.head?, next.id ≠ none) ∧
      KeepsIds outcome (round + 1) entries

theorem Entry.field_ne (entry : Entry) : ∀ byte ∈ entry.field, byte ≠ 58 := by
  intro byte isIn
  rw [Entry.field, List.mem_append] at isIn
  rcases isIn with isIn | isIn
  · exact (entry.isName byte isIn).1
  · cases given : entry.id with
    | none =>
      rw [given] at isIn
      cases isIn
    | some id =>
      rw [given] at isIn
      rcases List.mem_cons.mp isIn with rfl | isIn
      · decide
      · refine entry.isId byte ?_
        rw [given]
        exact isIn

variable {entry : Entry} {rest : List UInt8}

theorem getFieldAndMaId_text (ends : ∀ byte ∈ rest.head?, byte = 94) :
    getFieldAndMaId (entry.text ++ rest) =
      if entry.field.length < maxFieldNameLen ∧ entry.ma.length < 4 then
        some ⟨entry.field, atol entry.ma, rest.tail?⟩
      else none := by
  have isText : entry.text ++ rest = entry.field ++ 58 :: (entry.ma ++ rest) := by
    rw [Entry.text, List.append_assoc, List.cons_append]
  have allName : ∀ byte ∈ entry.field, decide (byte ≠ 58) = true := fun byte isIn =>
    decide_eq_true (entry.field_ne byte isIn)
  have allMa : ∀ byte ∈ entry.ma, decide (byte ≠ 94) = true := fun byte isIn =>
    decide_eq_true (entry.isMa byte isIn)
  have isMa : (entry.ma ++ rest).takeWhile (· ≠ 94) = entry.ma := by
    rw [List.takeWhile_append_of_pos allMa]
    cases rest with
    | nil => exact List.append_nil _
    | cons byte more =>
      rw [ends byte rfl, List.takeWhile_cons_of_neg (by decide), List.append_nil]
  rw [getFieldAndMaId, isText, List.takeWhile_append_of_pos allName,
    List.dropWhile_append_of_pos allName, List.takeWhile_cons_of_neg (by decide),
    List.dropWhile_cons_of_neg (by decide), List.append_nil]
  simp only [List.tail?_cons, Option.bind_some, isMa]
  by_cases short : entry.ma.length < 4
  · rw [List.take_of_length_le (by rw [maxFieldNameLen]; omega), List.drop_left, if_pos short]
    simp only [short, and_true]
  · have long : ¬ (entry.ma.take maxFieldNameLen).length < 4 := by
      rw [List.length_take, maxFieldNameLen]
      omega
    rw [if_neg long, ite_self, if_neg fun both => short both.2]

theorem takeWhile_field : entry.field.takeWhile (· ≠ 35) = entry.name := by
  have allName : ∀ byte ∈ entry.name, decide (byte ≠ 35) = true := fun byte isIn =>
    decide_eq_true (entry.isName byte isIn).2
  rw [Entry.field, List.takeWhile_append_of_pos allName]
  cases entry.id with
  | none => exact List.append_nil _
  | some id =>
    rw [Option.map_some, Option.getD_some, List.takeWhile_cons_of_neg (by decide),
      List.append_nil]

theorem dropWhile_field : (entry.field.dropWhile (· ≠ 35)).tail? = entry.id := by
  have allName : ∀ byte ∈ entry.name, decide (byte ≠ 35) = true := fun byte isIn =>
    decide_eq_true (entry.isName byte isIn).2
  rw [Entry.field, List.dropWhile_append_of_pos allName]
  cases entry.id with
  | none => rfl
  | some id =>
    rw [Option.map_some, Option.getD_some, List.dropWhile_cons_of_neg (by decide),
      List.tail?_cons]

theorem readField_text (fieldId : Int) (ends : ∀ byte ∈ rest.head?, byte = 94) :
    readField fieldId (entry.text ++ rest) =
      if entry.Fits then some ⟨entry.visit fieldId, entry.id.isSome, rest.tail?⟩ else none := by
  have isPath : (documentPath ++ entry.name).length = entry.name.length + 10 := by
    rw [List.length_append, Nat.add_comm]
    rfl
  rw [readField, getFieldAndMaId_text ends]
  by_cases fits : entry.Fits
  · have isShort : entry.field.length < maxFieldNameLen := by
      obtain ⟨shortName, shortId, _⟩ := fits
      rw [Entry.field, List.length_append, maxFieldNameLen]
      cases given : entry.id with
      | none => exact Nat.lt_of_lt_of_le shortName (by decide)
      | some id =>
        rw [given] at shortId
        rw [Option.map_some, Option.getD_some, List.length_cons]
        rw [Option.getD_some] at shortId
        omega
    rw [if_pos ⟨isShort, fits.2.2⟩, if_pos fits, Option.bind_some]
    simp only [takeWhile_field, dropWhile_field, isPath]
    rw [if_pos ⟨fits.2.1, Nat.add_lt_add_right fits.1 10⟩]
    rfl
  · rw [if_neg fits]
    split
    · rename_i isShort
      rw [Option.bind_some]
      simp only [takeWhile_field, dropWhile_field, isPath]
      refine if_neg fun both => fits ⟨?_, both.1, isShort.2⟩
      exact Nat.lt_of_add_lt_add_right both.2
    · rfl

theorem head_dropWhile_ne (mark : UInt8) (text : List UInt8) :
    ∀ byte ∈ (text.dropWhile (· ≠ mark)).head?, byte = mark := by
  intro byte isHead
  have stays := List.head?_dropWhile_not (fun byte => decide (byte ≠ mark)) text
  rw [Option.mem_def] at isHead
  rw [isHead] at stays
  simpa using stays

theorem ne_of_mem_takeWhile {mark byte : UInt8} {text : List UInt8}
    (isIn : byte ∈ text.takeWhile (· ≠ mark)) : byte ≠ mark := by
  have isKept := List.mem_takeWhile_imp isIn
  simpa using isKept

theorem mem_of_mem_tail {byte : UInt8} {text : List UInt8} (isIn : byte ∈ text.tail?.getD []) :
    byte ∈ text := by
  cases text with
  | nil => cases isIn
  | cons first text => exact List.mem_cons_of_mem _ isIn

theorem exists_entry {fieldId : Int} {p : List UInt8} {read : Round}
    (isRead : readField fieldId p = some read) :
    ∃ entry rest, (∀ byte ∈ List.head? rest, byte = 94) ∧ p = Entry.text entry ++ rest := by
  have isWhole := @List.takeWhile_append_dropWhile _ (fun byte => decide (byte ≠ 58)) p
  rw [readField, Option.bind_eq_some_iff] at isRead
  obtain ⟨data, isData, -⟩ := isRead
  rw [getFieldAndMaId] at isData
  dsimp only at isData
  split at isData
  case isFalse => cases isData
  case isTrue =>
    cases behind : p.dropWhile (· ≠ 58) with
    | nil =>
      rw [behind] at isData
      cases isData
    | cons colon sptr =>
      have isColon : colon = 58 := head_dropWhile_ne 58 p colon (by rw [behind]; rfl)
      rw [isColon] at behind
      have isField := @List.takeWhile_append_dropWhile _ (fun byte => decide (byte ≠ 35))
        (p.takeWhile (· ≠ 58))
      have isMa := @List.takeWhile_append_dropWhile _ (fun byte => decide (byte ≠ 94)) sptr
      have isId : (((p.takeWhile (· ≠ 58)).dropWhile (· ≠ 35)).tail?.map (35 :: ·)).getD [] =
          (p.takeWhile (· ≠ 58)).dropWhile (· ≠ 35) := by
        cases isTail : (p.takeWhile (· ≠ 58)).dropWhile (· ≠ 35) with
        | nil => rfl
        | cons mark id =>
          rw [head_dropWhile_ne 35 _ mark (by rw [isTail]; rfl)]
          rfl
      refine ⟨{
        name := (p.takeWhile (· ≠ 58)).takeWhile (· ≠ 35)
        id := ((p.takeWhile (· ≠ 58)).dropWhile (· ≠ 35)).tail?
        ma := sptr.takeWhile (· ≠ 94)
        isName := ?_
        isId := ?_
        isMa := fun byte isIn => ne_of_mem_takeWhile isIn }, sptr.dropWhile (· ≠ 94),
        head_dropWhile_ne 94 sptr, ?_⟩
      · intro byte isIn
        exact ⟨ne_of_mem_takeWhile (List.takeWhile_subset _ isIn), ne_of_mem_takeWhile isIn⟩
      · intro byte isIn
        have isField : byte ∈ p.takeWhile (· ≠ 58) :=
          (List.dropWhile_suffix _).subset (mem_of_mem_tail isIn)
        exact ne_of_mem_takeWhile isField
      · rw [Entry.text, Entry.field, isId, isField, List.append_assoc, List.cons_append, isMa,
          ← behind, isWhole]

theorem listText_ne_nil {isClosed : Bool} (entry : Entry) (entries : List Entry) :
    listText isClosed (entry :: entries) ≠ [] := by
  have isText : entry.text ≠ [] := List.append_ne_nil_of_right_ne_nil _ (List.cons_ne_nil _ _)
  cases entries with
  | nil => exact List.append_ne_nil_of_left_ne_nil isText _
  | cons next more => exact List.append_ne_nil_of_left_ne_nil isText _

section Runs

variable {outcome : Nat → Outcome} {rounds round : Nat} {fieldId : Int} {p : List UInt8}

theorem maLoop_text (ends : ∀ byte ∈ rest.head?, byte = 94) :
    maLoop outcome (rounds + 1) round fieldId (entry.text ++ rest) =
      if entry.Fits then
        if outcome round = .failed then some [entry.visit fieldId]
        else rest.tail?.bind fun p =>
          if p = [] then some [entry.visit fieldId]
          else
            (maLoop outcome rounds (round + 1)
              (nextFieldId (outcome round) entry.id.isSome (entry.visit fieldId).fieldId) p).map
              (entry.visit fieldId :: ·)
      else none := by
  rw [maLoop, readField_text fieldId ends]
  by_cases fits : entry.Fits
  · rw [if_pos fits, if_pos fits, Option.bind_some]
  · rw [if_neg fits, if_neg fits, Option.bind_none]

/-- The loop reads nothing behind the NUL and writes nothing behind its buffers exactly when
each field that it reads is complete. -/
theorem maLoop_isSome_iff (enough : p.length < rounds) :
    (maLoop outcome rounds round fieldId p).isSome = true ↔ Complete outcome round p := by
  induction rounds generalizing round fieldId p with
  | zero => omega
  | succ rounds ih =>
    constructor
    · intro isRun
      have isRead : ∃ read, readField fieldId p = some read := by
        cases reading : readField fieldId p with
        | none =>
          rw [maLoop, reading] at isRun
          cases isRun
        | some read => exact ⟨read, rfl⟩
      obtain ⟨read, isRead⟩ := isRead
      obtain ⟨entry, rest, ends, rfl⟩ := exists_entry isRead
      rw [maLoop_text ends] at isRun
      split at isRun
      case isFalse => cases isRun
      case isTrue fits =>
        split at isRun
        case isTrue isFailed => exact .failed fits isFailed ends
        case isFalse notFailed =>
          cases rest with
          | nil => cases isRun
          | cons mark more =>
            obtain rfl : mark = 94 := ends mark rfl
            rw [List.tail?_cons, Option.bind_some] at isRun
            split at isRun
            case isTrue isEnd =>
              rw [isEnd]
              exact .last fits
            case isFalse goesOn =>
              rw [Option.isSome_map] at isRun
              refine .next fits goesOn ((ih ?_).mp isRun)
              rw [Entry.text, List.length_append, List.length_append, List.length_cons,
                List.length_cons] at enough
              omega
    · intro complete
      cases complete with
      | failed fits isFailed ends =>
        rw [maLoop_text ends, if_pos fits, if_pos isFailed]
        rfl
      | last fits =>
        have ends : ∀ byte ∈ [(94 : UInt8)].head?, byte = 94 := by
          rintro byte ⟨⟩
          rfl
        rw [maLoop_text ends, if_pos fits, List.tail?_cons, Option.bind_some, if_pos rfl]
        split <;> rfl
      | @next _ entry rest fits more others =>
        have ends : ∀ byte ∈ (94 :: rest).head?, byte = 94 := by
          rintro byte ⟨⟩
          rfl
        have shorter : rest.length < rounds := by
          rw [Entry.text, List.length_append, List.length_append, List.length_cons,
            List.length_cons] at enough
          omega
        rw [maLoop_text ends, if_pos fits, List.tail?_cons, Option.bind_some, if_neg more]
        split
        · rfl
        · rw [Option.isSome_map]
          exact (ih shorter).mpr others

theorem maLoop_listText {isClosed : Bool} {entries : List Entry} {visits : List Visit}
    (isRun : maLoop outcome rounds round fieldId (listText isClosed entries) = some visits) :
    visits = visited outcome round fieldId entries := by
  induction entries generalizing rounds round fieldId visits with
  | nil => cases rounds <;> cases isRun
  | cons entry entries ih =>
    cases rounds with
    | zero => cases isRun
    | succ rounds =>
      cases entries with
      | nil =>
        have ends : ∀ byte ∈ (if isClosed = true then [(94 : UInt8)] else []).head?,
            byte = 94 := by
          cases isClosed
          · rintro byte ⟨⟩
          · rintro byte ⟨⟩
            rfl
        rw [listText, maLoop_text ends] at isRun
        split at isRun
        case isFalse => cases isRun
        case isTrue =>
          rw [visited]
          split at isRun
          case isTrue isFailed =>
            rw [if_pos isFailed]
            exact (Option.some.inj isRun).symm
          case isFalse notFailed =>
            rw [if_neg notFailed]
            cases isClosed with
            | false => cases isRun
            | true => exact (Option.some.inj isRun).symm
      | cons next more =>
        have ends : ∀ byte ∈ (94 :: listText isClosed (next :: more)).head?, byte = 94 := by
          rintro byte ⟨⟩
          rfl
        rw [listText, maLoop_text ends] at isRun
        · split at isRun
          case isFalse => cases isRun
          case isTrue =>
            rw [visited]
            split at isRun
            case isTrue isFailed =>
              rw [if_pos isFailed]
              exact (Option.some.inj isRun).symm
            case isFalse notFailed =>
              rw [if_neg notFailed]
              rw [List.tail?_cons, Option.bind_some, if_neg (listText_ne_nil next more)] at isRun
              obtain ⟨others, isOthers, rfl⟩ := Option.map_eq_some_iff.mp isRun
              rw [ih isOthers]
        · intro never
          cases never

theorem head_visited {entries : List Entry} :
    (visited outcome round fieldId (entry :: entries)).head? = some (entry.visit fieldId) := by
  rw [visited]
  split <;> rfl

theorem head_expected {entries : List Entry} :
    (expected outcome round fieldId (entry :: entries)).head? = some (entry.visit fieldId) := by
  rw [expected]
  split <;> rfl

theorem visit_fieldId (notGiven : entry.id = none) :
    (entry.visit fieldId).fieldId = fieldId := by
  change (entry.id.map atol).getD fieldId = fieldId
  rw [notGiven, Option.map_none, Option.getD_none]

theorem expected_given (given : entry.id ≠ none) (other : Int) (entries : List Entry) :
    expected outcome round fieldId (entry :: entries) =
      expected outcome round other (entry :: entries) := by
  have same : entry.visit fieldId = entry.visit other := by
    obtain ⟨id, isId⟩ := Option.ne_none_iff_exists'.mp given
    rw [Entry.visit, Entry.visit, isId]
    rfl
  rw [expected, expected, same]

/-- The ids are those of the list exactly when no id that was given is used again. -/
theorem visited_eq_expected_iff {entries : List Entry} :
    visited outcome round fieldId entries = expected outcome round fieldId entries ↔
      KeepsIds outcome round entries := by
  induction entries generalizing round fieldId with
  | nil => exact iff_of_true rfl trivial
  | cons entry entries ih =>
    rw [visited, expected, KeepsIds]
    by_cases isFailed : outcome round = .failed
    · rw [if_pos isFailed, if_pos isFailed]
      exact iff_of_true rfl fun notFailed => absurd isFailed notFailed
    · rw [if_neg isFailed, if_neg isFailed, imp_iff_right isFailed, List.cons_inj_right]
      by_cases skipped : entry.id.isSome = true ∧
          (outcome round = .missing ∨ outcome round = .empty)
      · have given : entry.id ≠ none := Option.isSome_iff_ne_none.mp skipped.1
        rw [nextFieldId, if_pos skipped, imp_iff_right given, imp_iff_right skipped.2]
        cases entries with
        | nil => exact iff_of_true rfl ⟨fun _ never => (by cases never), trivial⟩
        | cons next more =>
          by_cases isGiven : next.id = none
          · refine iff_of_false ?_ fun both => both.1 next rfl isGiven
            intro same
            have isFirst := congrArg List.head? same
            rw [head_visited, head_expected, Option.some_inj] at isFirst
            have isId := congrArg Visit.fieldId isFirst
            rw [visit_fieldId isGiven, visit_fieldId isGiven] at isId
            omega
          · rw [expected_given isGiven (entry.visit fieldId).fieldId more, ih]
            refine (and_iff_right ?_).symm
            rintro other ⟨⟩
            exact isGiven
      · rw [nextFieldId, if_neg skipped, ih]
        refine (and_iff_right ?_).symm
        intro given isSkipped
        exact absurd ⟨Option.isSome_iff_ne_none.mpr given, isSkipped⟩ skipped

end Runs

/-- The request visits the fields of its list without an access behind the metadata or the
buffers, exactly when the fields that it reads are complete and no given id is used again. -/
theorem documentMa_listed_iff (outcome : Nat → Outcome) (metadata : List UInt8) :
    (∃ visits, documentMa outcome metadata = some visits ∧
      ∀ isClosed entries, metadata = listText isClosed entries →
        visits = expected outcome 0 0 entries) ↔
      Complete outcome 0 metadata ∧
        ∀ isClosed entries, metadata = listText isClosed entries →
          KeepsIds outcome 0 entries := by
  have isIff := @maLoop_isSome_iff outcome (metadata.length + 1) 0 0 metadata (Nat.lt_succ_self _)
  rw [← isIff, ← documentMa]
  constructor
  · rintro ⟨visits, isRun, isListed⟩
    refine ⟨by rw [isRun]; rfl, ?_⟩
    rintro isClosed entries rfl
    have isVisited := maLoop_listText isRun
    exact visited_eq_expected_iff.mp (isVisited.symm.trans (isListed isClosed entries rfl))
  · rintro ⟨isSome, keepsIds⟩
    obtain ⟨visits, isRun⟩ := Option.isSome_iff_exists.mp isSome
    refine ⟨visits, isRun, ?_⟩
    rintro isClosed entries rfl
    exact (maLoop_listText isRun).trans
      (visited_eq_expected_iff.mpr (keepsIds isClosed entries rfl))

def plainField (name : UInt8) (isName : name ≠ 58 ∧ name ≠ 35) : Entry :=
  ⟨[name], none, [49], by simpa using isName, by simp, by simp⟩

def numberedField : Entry := ⟨[97], some [53], [49], by simp, by simp, by simp⟩

/-- `"a:1"` is read behind its NUL, and in `"a#5:1^b:1^"` without a field `a` the second field
is visited with the id 5. -/
theorem documentMa_notListed :
    (¬ ∃ visits, documentMa (fun _ => .analyzed) (listText false [plainField 97 (by decide)]) =
        some visits ∧
      visits = expected (fun _ => .analyzed) 0 0 [plainField 97 (by decide)]) ∧
    ¬ ∃ visits, documentMa (fun round => if round = 0 then .missing else .analyzed)
        (listText true [numberedField, plainField 98 (by decide)]) = some visits ∧
      visits = expected (fun round => if round = 0 then .missing else .analyzed) 0 0
        [numberedField, plainField 98 (by decide)] := by
  constructor
  · rintro ⟨visits, isRun, -⟩
    cases isRun
  · rintro ⟨visits, isRun, isVisits⟩
    rw [isVisits] at isRun
    exact absurd isRun (by decide)

end Wisebot.Httpd.FieldList
