import Mathlib.Data.List.Nodup
import Wisebot.Rmac.Analysis

namespace Wisebot.Rmac

open Lib

/-! The remote way gives the words of the local way as long as the body of the request
has no byte that the receiver reads as something else. -/

/-! ### The `Field` lines -/

/-- A line whose arguments have room in the buffers that they are copied to. -/
structure Directive.Fitting (directive : Directive) : Prop where
  idDigits : ∀ byte ∈ directive.id, Decimal.isDigit byte = true
  idShort : directive.id.length ≤ 2
  standard : 0 ≤ directive.fieldId ∧ directive.fieldId < maxStdField
  morpidDigits : ∀ byte ∈ directive.morpid, Decimal.isDigit byte = true
  morpidShort : directive.morpid.length ≤ 3
  nameShort : directive.name.length < shortStringSize
  nameFree : 35 ∉ directive.name ∧ 58 ∉ directive.name ∧ 94 ∉ directive.name ∧
    0 ∉ directive.name

def indexedOf (directives : List Directive) : List Directive :=
  directives.filter Directive.isIndexed

def metaText (directives : List Directive) : List UInt8 :=
  (indexedOf directives).flatMap Directive.entry

/-- The text of the fields reaches the other side as it is: there is one, it fits into
the path, and the receiver reads no byte of a name as something else. -/
structure Sendable (directives : List Directive) : Prop where
  present : indexedOf directives ≠ []
  fits : (ofString "/document/ma?metadata=").length + (escapePath (metaText directives)).length <
    longStringSize
  names : ∀ directive ∈ indexedOf directives, Plain directive.name ∧ 38 ∉ directive.name

def Directive.info (directive : Directive) : FieldInfo :=
  ⟨directive.name, directive.isIndexed,
    if directive.isIndexed then Cdm.atoi directive.morpid else 0⟩

variable {directive : Directive} {directives done : List Directive} {config : Config}

theorem length_entry (directive : Directive) : directive.entry.length =
    directive.name.length + directive.id.length + directive.morpid.length + 3 := by
  simp [Directive.entry]
  omega

theorem length_le_escapePath (text : List UInt8) : text.length ≤ (escapePath text).length := by
  induction text with
  | nil => exact Nat.zero_le _
  | cons byte rest induction =>
    have split : escapePath (byte :: rest) =
        (if escapesPathSegment byte then c2x byte else [byte]) ++ escapePath rest :=
      List.flatMap_cons
    have first : 1 ≤ (if escapesPathSegment byte then c2x byte else [byte]).length := by
      split
      · exact Nat.le_add_left 1 2
      · exact le_rfl
    rw [split, List.length_append, List.length_cons]
    omega

theorem metaText_append (directives : List Directive) (directive : Directive) :
    metaText (directives ++ [directive]) =
      metaText directives ++ if directive.isIndexed then directive.entry else [] := by
  rw [metaText, indexedOf, List.filter_append, List.flatMap_append]
  cases isIndexed : directive.isIndexed with
  | false => simp [isIndexed, metaText, indexedOf]
  | true => simp [isIndexed, metaText, indexedOf]

structure Configured (done : List Directive) (config : Config) : Prop where
  metaData : config.metaData = if indexedOf done = [] then none else some (metaText done)
  room : config.metaData ≠ none → (metaText done).length < config.metaDataSize ∧
    config.metaDataSize ≤ (metaText done).length + 2 * stringSize
  infos : ∀ directive ∈ done, config.fieldInfo directive.fieldId.toNat = directive.info
  others : ∀ id : Nat, (∀ directive ∈ done, directive.fieldId ≠ id) →
    config.fieldInfo id = ⟨[], false, 0⟩

theorem Configured.empty : Configured [] Config.empty where
  metaData := rfl
  room := fun some_ => absurd rfl some_
  infos := by simp
  others := fun _ _ => rfl

theorem Configured.getD (configured : Configured done config) :
    config.metaData.getD [] = metaText done := by
  rw [configured.metaData]
  split
  next none_ => simp [metaText, none_]
  next => rfl

theorem Configured.size (configured : Configured done config) :
    (metaText done).length <
        (if config.metaData.isNone then stringSize else config.metaDataSize) ∧
      (if config.metaData.isNone then stringSize else config.metaDataSize) ≤
        (metaText done).length + 2 * stringSize := by
  cases isText : config.metaData with
  | none =>
    have noText : metaText done = [] := by
      rw [← configured.getD, isText]
      rfl
    rw [noText]
    show 0 < stringSize ∧ stringSize ≤ 0 + 2 * stringSize
    decide
  | some text => exact configured.room (by rw [isText]; exact Option.some_ne_none text)

theorem Configured.infos_append (configured : Configured done config)
    (fitting : directive.Fitting) (doneFitting : ∀ other ∈ done, other.Fitting)
    (fresh : ∀ other ∈ done, other.fieldId ≠ directive.fieldId) :
    (∀ other ∈ done ++ [directive],
      Function.update config.fieldInfo directive.fieldId.toNat directive.info
        other.fieldId.toNat = other.info) ∧
    ∀ id : Nat, (∀ other ∈ done ++ [directive], other.fieldId ≠ id) →
      Function.update config.fieldInfo directive.fieldId.toNat directive.info id =
        ⟨[], false, 0⟩ := by
  have positive := fitting.standard.1
  constructor
  · intro other member
    rcases List.mem_append.mp member with older | new
    · have apart := fresh other older
      have otherPositive := (doneFitting other older).standard.1
      rw [Function.update_of_ne (by omega)]
      exact configured.infos other older
    · obtain rfl := List.mem_singleton.mp new
      exact Function.update_self _ _ _
  · intro id absent
    have apart := absent directive (List.mem_append_right _ List.mem_cons_self)
    rw [Function.update_of_ne (by omega)]
    exact configured.others id fun other member => absent other (List.mem_append_left _ member)

theorem Configured.setMetaData (configured : Configured done config)
    (fitting : directive.Fitting) (doneFitting : ∀ other ∈ done, other.Fitting)
    (fresh : ∀ other ∈ done, other.fieldId ≠ directive.fieldId)
    (short : (metaText (done ++ [directive])).length < longStringSize) :
    ∃ next, setMetaData config directive = some next ∧
      Configured (done ++ [directive]) next := by
  obtain ⟨infos, others⟩ := configured.infos_append fitting doneFitting fresh
  obtain ⟨positive, standard⟩ := fitting.standard
  have unknown : config.fieldInfo directive.fieldId.toNat = ⟨[], false, 0⟩ :=
    configured.others _ fun other member => by
      rw [Int.toNat_of_nonneg positive]
      exact fresh other member
  have nameShort := fitting.nameShort
  have name : directive.name.take shortStringSize = directive.name :=
    List.take_of_length_le nameShort.le
  have inRange : ¬ (directive.fieldId < 0 ∨ (maxExtField : Int) ≤ directive.fieldId) := by
    simp only [maxExtField, maxStdField] at standard ⊢
    omega
  have isStandard : ¬ (maxStdField : Int) ≤ directive.fieldId := Int.not_le.mpr standard
  have length := length_entry directive
  have idShort := fitting.idShort
  have morpidShort := fitting.morpidShort
  have inBuffer : ¬ stringSize ≤ directive.entry.length := by
    simp only [shortStringSize] at nameShort
    simp only [stringSize]
    omega
  rw [Rmac.setMetaData, if_neg inRange]
  cases isIndexed : directive.isIndexed with
  | false =>
    have isInfo : (⟨directive.name.take shortStringSize, false, 0⟩ : FieldInfo) =
        directive.info := by
      rw [Directive.info, isIndexed, name]
      rfl
    have sameIndexed : indexedOf (done ++ [directive]) = indexedOf done := by
      simp [indexedOf, isIndexed]
    have sameText : metaText (done ++ [directive]) = metaText done := by
      rw [metaText, sameIndexed, metaText]
    refine ⟨_, if_pos rfl, ?_, ?_, ?_, ?_⟩
    · rw [sameIndexed, sameText]
      exact configured.metaData
    · rw [sameText]
      exact configured.room
    · rw [unknown, isInfo]
      exact infos
    · rw [unknown, isInfo]
      exact others
  | true =>
    have isInfo : (⟨directive.name.take shortStringSize, true, Cdm.atoi directive.morpid⟩ :
        FieldInfo) = directive.info := by
      rw [Directive.info, isIndexed, name]
      rfl
    have some_ : indexedOf (done ++ [directive]) ≠ [] := by
      simp [indexedOf, isIndexed]
    have text : metaText (done ++ [directive]) = metaText done ++ directive.entry := by
      rw [metaText_append, isIndexed, if_pos rfl]
    rw [text, List.length_append] at short
    obtain ⟨used, bounded⟩ := configured.size
    have kept : ∀ (size : Nat) (entry : List UInt8), entry = directive.entry →
        (metaText done).length + directive.entry.length < size →
        size ≤ (metaText done).length + directive.entry.length + 2 * stringSize →
        Configured (done ++ [directive])
          ⟨Function.update config.fieldInfo directive.fieldId.toNat
            ⟨directive.name.take shortStringSize, true, Cdm.atoi directive.morpid⟩,
            some (config.metaData.getD [] ++ entry), size⟩ := by
      intro size entry isEntry fits small
      refine ⟨?_, fun _ => ?_, ?_, ?_⟩
      · rw [if_neg some_, text, configured.getD, isEntry]
      · rw [text, List.length_append]
        exact ⟨fits, small⟩
      · rw [isInfo]
        exact infos
      · rw [isInfo]
        exact others
    have isTrue : ¬ true = false := by decide
    rw [if_neg isTrue, if_neg isStandard, if_neg inBuffer]
    generalize (if config.metaData.isNone then stringSize else config.metaDataSize) = size
      at used bounded ⊢
    simp only [configured.getD] at kept ⊢
    rcases Nat.lt_or_ge (size - (metaText done).length) (directive.entry.length + 1) with
      full | room
    · have inLimit : ¬ sb4MaxSendSize ≤ size + stringSize := by
        simp only [sb4MaxSendSize, stringSize, longStringSize] at *
        omega
      have whole : directive.entry.length ≤ size - (metaText done).length + stringSize := by
        omega
      rw [if_pos full, if_neg inLimit]
      exact ⟨_, rfl, kept _ _ (List.take_of_length_le whole) (by omega) (by omega)⟩
    · have whole : directive.entry.length ≤ size - (metaText done).length := by omega
      rw [if_neg (Nat.not_lt.mpr room)]
      exact ⟨_, rfl, kept _ _ (List.take_of_length_le whole) (by omega) (by omega)⟩

structure Fits (directives : List Directive) : Prop where
  fitting : ∀ directive ∈ directives, directive.Fitting
  distinct : (directives.map Directive.fieldId).Nodup

theorem configureFrom_spec (configured : Configured done config)
    (fits : Fits (done ++ directives))
    (short : (metaText (done ++ directives)).length < longStringSize) :
    ∃ final, configureFrom config directives = some final ∧
      Configured (done ++ directives) final := by
  induction directives generalizing done config with
  | nil =>
    rw [List.append_nil]
    exact ⟨config, rfl, configured⟩
  | cons directive directives induction =>
    have split : done ++ directive :: directives = (done ++ [directive]) ++ directives := by
      rw [List.append_assoc, List.singleton_append]
    have fresh : ∀ other ∈ done, other.fieldId ≠ directive.fieldId := by
      intro other member same
      have distinct := fits.distinct
      rw [List.map_append, List.nodup_append] at distinct
      exact distinct.2.2 _ (List.mem_map_of_mem member) _
        (List.mem_map_of_mem List.mem_cons_self) same
    have shorter : (metaText (done ++ [directive])).length < longStringSize := by
      have whole : metaText (done ++ directive :: directives) =
          metaText (done ++ [directive]) ++ metaText directives := by
        rw [split, metaText, indexedOf, List.filter_append, List.flatMap_append]
        rfl
      rw [whole, List.length_append] at short
      omega
    obtain ⟨next, stepped, kept⟩ := configured.setMetaData
      (fits.fitting directive (List.mem_append_right _ List.mem_cons_self))
      (fun other member => fits.fitting other (List.mem_append_left _ member)) fresh shorter
    rw [split] at fits short ⊢
    obtain ⟨final, run, configured⟩ := induction kept fits short
    exact ⟨final, by rw [configureFrom, stepped]; exact run, configured⟩

theorem configure_spec (fits : Fits directives) (sendable : Sendable directives) :
    ∃ config, configure directives = some config ∧ Configured directives config := by
  have short : (metaText ([] ++ directives)).length < longStringSize := by
    have shorter := length_le_escapePath (metaText directives)
    have whole := sendable.fits
    rw [List.nil_append]
    omega
  exact configureFrom_spec Configured.empty fits short

variable {Word : Type} {parser : List UInt8 → Option (List UInt8)} {analyze : Analyzer Word}

def Directive.words (parser : List UInt8 → Option (List UInt8)) (analyze : Analyzer Word)
    (directive : Directive) : List (Int × Word) :=
  fieldWords parser analyze directive.fieldId directive.name (Cdm.atoi directive.morpid)

def wordsOf (field : Int) (words : List (Int × Word)) : List (Int × Word) :=
  words.filter fun word => word.1 = field

theorem wordsOf_fieldWords (field fieldId : Int) (name : List UInt8) (morpid : Int) :
    wordsOf field (fieldWords parser analyze fieldId name morpid) =
      if fieldId = field then fieldWords parser analyze fieldId name morpid else [] := by
  rw [fieldWords]
  cases fieldValue parser name with
  | none => simp [wordsOf]
  | some value =>
    by_cases same : fieldId = field
    · simp [wordsOf, rmasMorphologicalAnalyzer, same]
    · simp [wordsOf, rmasMorphologicalAnalyzer, same]

theorem wordsOf_flatMap {α : Type} (field : Int) (items : List α)
    (words : α → List (Int × Word)) :
    wordsOf field (items.flatMap words) = items.flatMap fun item => wordsOf field (words item) :=
  List.filter_flatMap

theorem flatMap_key {α : Type} {key : α → Int} {items : List α} (distinct : (items.map key).Nodup)
    {item : α} (member : item ∈ items) (words : α → List (Int × Word)) :
    (items.flatMap fun other => if key other = key item then words other else []) =
      words item := by
  induction items with
  | nil => cases member
  | cons first items induction =>
    rw [List.map_cons, List.nodup_cons] at distinct
    rw [List.flatMap_cons]
    rcases List.mem_cons.mp member with rfl | later
    · have others : (items.flatMap fun other => if key other = key item then words other else []) =
          [] := by
        rw [List.flatMap_eq_nil_iff]
        intro other isOther
        have apart : key other ≠ key item := fun same =>
          distinct.1 (same ▸ List.mem_map_of_mem isOther)
        rw [if_neg apart]
      rw [if_pos rfl, others, List.append_nil]
    · have apart : key first ≠ key item := fun same =>
        distinct.1 (same ▸ List.mem_map_of_mem later)
      rw [if_neg apart, List.nil_append]
      exact induction distinct.2 later

theorem flatMap_no_key {α : Type} {key : α → Int} {items : List α} {field : Int}
    (absent : ∀ item ∈ items, key item ≠ field) (words : α → List (Int × Word)) :
    (items.flatMap fun other => if key other = field then words other else []) = [] := by
  rw [List.flatMap_eq_nil_iff]
  intro other isOther
  rw [if_neg (absent other isOther)]

/-- What the loop over the fields does with one of them. -/
def localWords (config : Config) (parser : List UInt8 → Option (List UInt8))
    (analyze : Analyzer Word) (i : Nat) : List (Int × Word) :=
  if (config.fieldInfo i).index then
    fieldWords parser analyze i (config.fieldInfo i).name (config.fieldInfo i).indexerMorpid
  else []

theorem wordsOf_localWords (field : Int) (i : Nat) :
    wordsOf field (localWords config parser analyze i) =
      if (i : Int) = field then localWords config parser analyze i else [] := by
  rw [localWords]
  split
  · exact wordsOf_fieldWords field i _ _
  · simp [wordsOf]

theorem Configured.localWords (configured : Configured directives config) (fits : Fits directives)
    (member : directive ∈ directives) :
    localWords config parser analyze directive.fieldId.toNat =
      if directive.isIndexed then directive.words parser analyze else [] := by
  rw [Rmac.localWords, configured.infos directive member, Directive.info]
  cases isIndexed : directive.isIndexed with
  | false => rfl
  | true =>
    rw [Directive.words, Int.toNat_of_nonneg (fits.fitting directive member).standard.1]
    rfl

theorem Configured.wordsOf_eq (configured : Configured directives config) (fits : Fits directives)
    (field : Int) :
    wordsOf field ((List.range maxExtField).flatMap (Rmac.localWords config parser analyze)) =
      wordsOf field ((indexedOf directives).flatMap (Directive.words parser analyze)) := by
  have distinctIndexed : ((indexedOf directives).map Directive.fieldId).Nodup :=
    fits.distinct.sublist (List.filter_sublist.map _)
  have distinctRange : ((List.range maxExtField).map fun i : Nat => (i : Int)).Nodup :=
    List.nodup_range.map fun _ _ same => Int.ofNat_inj.mp same
  have remote : wordsOf field ((indexedOf directives).flatMap (Directive.words parser analyze)) =
      (indexedOf directives).flatMap fun directive =>
        if directive.fieldId = field then directive.words parser analyze else [] := by
    rw [wordsOf_flatMap]
    exact List.flatMap_congr fun directive _ => wordsOf_fieldWords field _ _ _
  have here : wordsOf field
        ((List.range maxExtField).flatMap (Rmac.localWords config parser analyze)) =
      (List.range maxExtField).flatMap fun i : Nat =>
        if (i : Int) = field then Rmac.localWords config parser analyze i else [] := by
    rw [wordsOf_flatMap]
    exact List.flatMap_congr fun i _ => wordsOf_localWords field i
  rw [remote, here]
  by_cases known : ∃ directive ∈ directives, directive.fieldId = field
  · obtain ⟨directive, member, rfl⟩ := known
    obtain ⟨positive, standard⟩ := (fits.fitting directive member).standard
    have isField : ((directive.fieldId.toNat : Nat) : Int) = directive.fieldId :=
      Int.toNat_of_nonneg positive
    have inRange : directive.fieldId.toNat ∈ List.range maxExtField := by
      simp only [maxStdField] at standard
      rw [List.mem_range]
      simp only [maxExtField]
      omega
    have one := flatMap_key distinctRange inRange (Rmac.localWords config parser analyze)
    rw [isField] at one
    rw [one, configured.localWords fits member]
    split
    next isIndexed =>
      have indexed : directive ∈ indexedOf directives := List.mem_filter.mpr ⟨member, isIndexed⟩
      exact (flatMap_key distinctIndexed indexed (Directive.words parser analyze)).symm
    next notIndexed =>
      refine (flatMap_no_key ?_ _).symm
      intro other isOther same
      obtain ⟨otherMember, otherIndexed⟩ := List.mem_filter.mp isOther
      have isSame := List.inj_on_of_nodup_map fits.distinct otherMember member same
      rw [isSame] at otherIndexed
      exact notIndexed otherIndexed
  · have absent : ∀ other ∈ directives, other.fieldId ≠ field := fun other member same =>
      known ⟨other, member, same⟩
    have noRemote : ∀ other ∈ indexedOf directives, other.fieldId ≠ field := fun other member =>
      absent other (List.mem_filter.mp member).1
    rw [flatMap_no_key noRemote, List.flatMap_eq_nil_iff]
    intro i _
    split
    next isField =>
      rw [Rmac.localWords, configured.others i fun other member => by
        rw [isField]
        exact absent other member]
      rfl
    next => rfl

theorem ne_of_isDigit {byte other : UInt8} (digit : Decimal.isDigit byte = true)
    (notDigit : Decimal.isDigit other = false) : byte ≠ other := by
  rintro rfl
  rw [digit] at notDigit
  cases notDigit

theorem notMem_of_digits {text : List UInt8} {other : UInt8}
    (digits : ∀ byte ∈ text, Decimal.isDigit byte = true)
    (notDigit : Decimal.isDigit other = false) : other ∉ text :=
  fun member => ne_of_isDigit (digits other member) notDigit rfl

theorem takeWhile_ne {byte : UInt8} {text : List UInt8} (absent : byte ∉ text)
    (rest : List UInt8) :
    (text ++ byte :: rest).takeWhile (· ≠ byte) = text ∧
      (text ++ byte :: rest).dropWhile (· ≠ byte) = byte :: rest := by
  have kept : ∀ other ∈ text, decide (other ≠ byte) = true := fun other member =>
    decide_eq_true fun same => absent (same ▸ member)
  constructor
  · rw [List.takeWhile_append_of_pos kept, List.takeWhile_cons_of_neg (by simp), List.append_nil]
  · rw [List.dropWhile_append_of_pos kept, List.dropWhile_cons_of_neg (by simp)]

def Directive.label (directive : Directive) : List UInt8 :=
  directive.name ++ 35 :: directive.id

theorem entry_append (directive : Directive) (rest : List UInt8) :
    directive.entry ++ rest = directive.label ++ 58 :: (directive.morpid ++ 94 :: rest) := by
  simp [Directive.entry, Directive.label]

theorem Directive.Fitting.getField (fitting : directive.Fitting) (rest : List UInt8) :
    getFieldAndMaIdFromMetaData (directive.entry ++ rest) =
      some (directive.label, Cdm.atoi directive.morpid, rest) := by
  have noColon : 58 ∉ directive.label := by
    rw [Directive.label, List.mem_append, List.mem_cons]
    rintro (inName | isHash | inId)
    · exact fitting.nameFree.2.1 inName
    · exact absurd isHash (by decide)
    · exact notMem_of_digits fitting.idDigits (by decide) inId
  have noCaret : 94 ∉ directive.morpid := notMem_of_digits fitting.morpidDigits (by decide)
  obtain ⟨label, behindLabel⟩ := takeWhile_ne noColon (directive.morpid ++ 94 :: rest)
  obtain ⟨morpid, behindMorpid⟩ := takeWhile_ne noCaret rest
  have inBuffers : ¬ (stringSize ≤ directive.label.length ∨ 4 ≤ directive.morpid.length) := by
    have nameShort := fitting.nameShort
    have idShort := fitting.idShort
    have morpidShort := fitting.morpidShort
    simp only [shortStringSize] at nameShort
    simp only [stringSize, Directive.label, List.length_append, List.length_cons]
    omega
  rw [entry_append, getFieldAndMaIdFromMetaData]
  simp only [label, behindLabel, morpid, behindMorpid, if_neg inBuffers]

theorem length_le_flatMap_entry (directives : List Directive) :
    directives.length ≤ (directives.flatMap Directive.entry).length := by
  induction directives with
  | nil => exact Nat.zero_le _
  | cons directive directives induction =>
    have length := length_entry directive
    rw [List.flatMap_cons, List.length_append, List.length_cons]
    omega

theorem maFields_spec (fitting : ∀ directive ∈ directives, directive.Fitting)
    (some_ : directives ≠ []) {fuel : Nat} (enough : directives.length ≤ fuel) (fieldId : Int) :
    maFields parser analyze false fuel fieldId (directives.flatMap Directive.entry) =
      some (directives.flatMap (Directive.words parser analyze)) := by
  induction directives generalizing fuel fieldId with
  | nil => exact absurd rfl some_
  | cons directive directives induction =>
    cases fuel with
    | zero => cases enough
    | succ fuel =>
      have first := fitting directive List.mem_cons_self
      obtain ⟨name, behindName⟩ := takeWhile_ne first.nameFree.1 directive.id
      have given : directive.label.contains 35 = true := by
        rw [List.contains_iff_mem, Directive.label]
        exact List.mem_append_right _ List.mem_cons_self
      have isName : directive.label.takeWhile (· ≠ 35) = directive.name := name
      have isId : (directive.label.dropWhile (· ≠ 35)).drop 1 = directive.id :=
        congrArg (List.drop 1) behindName
      have inBuffers : ¬ (3 ≤ directive.id.length ∨
          stringSize ≤ (documentPath directive.name).length) := by
        have nameShort := first.nameShort
        have idShort := first.idShort
        have root : (ofString "/Document/").length = 10 := rfl
        simp only [shortStringSize] at nameShort
        simp only [stringSize, documentPath, List.length_append, root]
        omega
      rw [List.flatMap_cons, maFields, first.getField]
      simp only [isName, isId, given, if_neg inBuffers, if_true, Bool.false_eq_true, if_false,
        true_and]
      by_cases last : directives = []
      · subst last
        rw [List.flatMap_nil, if_pos rfl, List.flatMap_cons, List.flatMap_nil, List.append_nil]
        rfl
      · have more : directives.flatMap Directive.entry ≠ [] := by
          obtain ⟨second, others, rfl⟩ := List.exists_cons_of_ne_nil last
          rw [List.flatMap_cons, entry_append]
          exact List.append_ne_nil_of_right_ne_nil _ (List.cons_ne_nil _ _)
        rw [if_neg more, induction (fun other member => fitting other
          (List.mem_cons_of_mem _ member)) last (Nat.le_of_succ_le_succ enough)]
        rfl

theorem Plain.append_cons {text rest : List UInt8} {byte : UInt8} (plain : Plain text)
    (notPlus : byte ≠ 43) (notPercent : byte ≠ 37) (notHex : isXDigit byte = false)
    (plainRest : Plain rest) : Plain (text ++ byte :: rest) := by
  induction text with
  | nil => exact ⟨notPlus, fun escape => notPercent escape.1, plainRest⟩
  | cons first text induction =>
    obtain ⟨firstNotPlus, noEscape, plainText⟩ := plain
    refine ⟨firstNotPlus, ?_, induction plainText⟩
    rintro ⟨isPercent, starts⟩
    rcases text with _ | ⟨second, _ | ⟨third, text⟩⟩
    · cases rest with
      | nil => cases starts
      | cons next rest =>
        have starts : (isXDigit byte && isXDigit next) = true := starts
        rw [notHex] at starts
        cases starts
    · have starts : (isXDigit second && isXDigit byte) = true := starts
      rw [notHex, Bool.and_false] at starts
      cases starts
    · exact noEscape ⟨isPercent, starts⟩

theorem plain_of_digits {text : List UInt8}
    (digits : ∀ byte ∈ text, Decimal.isDigit byte = true) : Plain text := by
  induction text with
  | nil => trivial
  | cons byte text induction =>
    have digit := digits byte List.mem_cons_self
    exact ⟨ne_of_isDigit digit (by decide), fun escape => ne_of_isDigit digit (by decide) escape.1,
      induction fun other member => digits other (List.mem_cons_of_mem _ member)⟩

/-- A byte of the text of the fields is a mark of it or in a name. -/
theorem mem_flatMap_entry (fitting : ∀ directive ∈ directives, directive.Fitting) {byte : UInt8}
    (member : byte ∈ directives.flatMap Directive.entry) :
    (∃ directive ∈ directives, byte ∈ directive.name) ∨ Decimal.isDigit byte = true ∨
      byte = 35 ∨ byte = 58 ∨ byte = 94 := by
  obtain ⟨directive, isDirective, inEntry⟩ := List.mem_flatMap.mp member
  have fits := fitting directive isDirective
  simp only [Directive.entry, List.append_assoc, List.cons_append, List.mem_append, List.mem_cons,
    List.not_mem_nil, or_false] at inEntry
  rcases inEntry with inName | isHash | inId | isColon | inMorpid | isCaret
  · exact .inl ⟨directive, isDirective, inName⟩
  · exact .inr (.inr (.inl isHash))
  · exact .inr (.inl (fits.idDigits byte inId))
  · exact .inr (.inr (.inr (.inl isColon)))
  · exact .inr (.inl (fits.morpidDigits byte inMorpid))
  · exact .inr (.inr (.inr (.inr isCaret)))

theorem plain_flatMap_entry (fitting : ∀ directive ∈ directives, directive.Fitting)
    (names : ∀ directive ∈ directives, Plain directive.name) :
    Plain (directives.flatMap Directive.entry) := by
  induction directives with
  | nil => trivial
  | cons directive directives induction =>
    have first := fitting directive List.mem_cons_self
    have later := induction (fun other member => fitting other (List.mem_cons_of_mem _ member))
      fun other member => names other (List.mem_cons_of_mem _ member)
    have behindColon : Plain (directive.morpid ++ 94 :: directives.flatMap Directive.entry) :=
      (plain_of_digits first.morpidDigits).append_cons (by decide) (by decide) (by decide) later
    have behindHash : Plain (directive.id ++ 58 :: (directive.morpid ++
        94 :: directives.flatMap Directive.entry)) :=
      (plain_of_digits first.idDigits).append_cons (by decide) (by decide) (by decide) behindColon
    have whole := (names directive List.mem_cons_self).append_cons
      (show (35 : UInt8) ≠ 43 by decide) (by decide) (by decide) behindHash
    rw [List.flatMap_cons, entry_append, Directive.label, List.append_assoc, List.cons_append]
    exact whole

theorem notMem_escapePath {text : List UInt8} {byte : UInt8}
    (gone : byte ∉ text ∨ escapesPathSegment byte = true) (notHex : isXDigit byte = false) (notPercent : byte ≠ 37) : byte ∉ escapePath text := by
  intro member
  obtain ⟨original, isOriginal, inEscaped⟩ := List.mem_flatMap.mp member
  split at inEscaped
  next =>
    have notDigit : ∀ digit : UInt8, digit < 16 → byte ≠ c2xDigit digit := by
      intro digit small same
      rw [same, (hex_c2xDigit digit small).1] at notHex
      cases notHex
    have small : original.toNat < 256 := original.toNat_lt
    rw [c2x, List.mem_cons, List.mem_cons, List.mem_singleton] at inEscaped
    rcases inEscaped with isPercent | isHigh | isLow
    · exact notPercent isPercent
    · refine notDigit (original / 16) ?_ isHigh
      rw [UInt8.lt_iff_toNat_lt, UInt8.toNat_div]
      show original.toNat / 16 < 16
      omega
    · refine notDigit (original % 16) ?_ isLow
      rw [UInt8.lt_iff_toNat_lt, UInt8.toNat_mod]
      exact Nat.mod_lt _ (by decide)
  next literal =>
    rw [List.mem_singleton.mp inEscaped] at gone
    rcases gone with absent | escapes
    · exact absent isOriginal
    · exact literal escapes

theorem cut_eq_self {text : List UInt8} (noNul : 0 ∉ text) : cut text = text := by
  rw [cut, List.takeWhile_eq_self_iff]
  intro byte member
  exact decide_eq_true fun zero => noNul (zero ▸ member)

theorem parametersIn_query {text : List UInt8} (plain : Plain text) (noNul : 0 ∉ text)
    (noAmpersand : 38 ∉ text) :
    parametersIn (queryOf (ofString "/document/ma?metadata=" ++ escapePath text)) =
      [(ofString "metadata", text)] := by
  have noHash : 35 ∉ ofString "metadata=" ++ escapePath text := by
    rw [List.mem_append]
    rintro (inKey | inText)
    · exact absurd inKey (by decide)
    · exact notMem_escapePath (.inr (by decide)) (by decide) (by decide) inText
  have noSeparator : ∀ byte ∈ ofString "metadata=" ++ escapePath text, (byte == 38) = false := by
    intro byte member
    rw [beq_eq_false_iff_ne]
    rintro rfl
    rcases List.mem_append.mp member with inKey | inText
    · exact absurd inKey (by decide)
    · exact notMem_escapePath (.inl noAmpersand) (by decide) (by decide) inText
  have query : queryOf (ofString "/document/ma?metadata=" ++ escapePath text) =
      ofString "metadata=" ++ escapePath text := by
    have behind : ((ofString "/document/ma?metadata=" ++ escapePath text).dropWhile
        (· ≠ 63)).drop 1 = ofString "metadata=" ++ escapePath text := rfl
    rw [queryOf, behind, List.takeWhile_eq_self_iff]
    intro byte member
    exact decide_eq_true fun same => noHash (same ▸ member)
  have value : parameter (ofString "metadata=" ++ escapePath text) =
      some (ofString "metadata", text) := by
    have split : parameter (ofString "metadata=" ++ escapePath text) =
        some (ofString "metadata", cut (decodencpy (escapePath text))) := rfl
    rw [split, decodencpy_escapePath, plain.map_plusToSpace, cut_eq_self noNul]
  rw [query, parametersIn, List.splitOn, List.splitOnP_eq_singleton noSeparator]
  have nonempty : ofString "metadata=" ++ escapePath text ≠ [] :=
    List.append_ne_nil_of_left_ne_nil (by decide) _
  have kept : [ofString "metadata=" ++ escapePath text].filter (· ≠ []) =
      [ofString "metadata=" ++ escapePath text] :=
    List.filter_eq_self.mpr fun token member =>
      decide_eq_true (List.mem_singleton.mp member ▸ nonempty)
  rw [kept, List.filterMap_cons_some value, List.filterMap_nil]

theorem Configured.morphologicalAnalyzeHttp (configured : Configured directives config)
    (fits : Fits directives) (sendable : Sendable directives) (xml : XmlParser)
    {document : List UInt8} (noNul : 0 ∉ document) (small : document.length + 5 < documentSize) :
    morphologicalAnalyzeHttp config xml analyze document =
      some ((xml (cut (decodencpy document))).map fun parser =>
        (indexedOf directives).flatMap (Directive.words parser analyze)) := by
  have indexedFitting : ∀ directive ∈ indexedOf directives, directive.Fitting :=
    fun directive member => fits.fitting directive (List.mem_filter.mp member).1
  have plain : Plain (metaText directives) :=
    plain_flatMap_entry indexedFitting fun directive member => (sendable.names directive member).1
  have textNoNul : 0 ∉ metaText directives := by
    intro member
    rcases mem_flatMap_entry indexedFitting member with ⟨directive, isDirective, inName⟩ | other
    · exact (indexedFitting directive isDirective).nameFree.2.2.2 inName
    · exact absurd other (by decide)
  have noAmpersand : 38 ∉ metaText directives := by
    intro member
    rcases mem_flatMap_entry indexedFitting member with ⟨directive, isDirective, inName⟩ | other
    · exact (sendable.names directive isDirective).2 inName
    · exact absurd other (by decide)
  have nonempty : metaText directives ≠ [] := by
    obtain ⟨directive, others, isCons⟩ := List.exists_cons_of_ne_nil sendable.present
    rw [metaText, isCons, List.flatMap_cons, entry_append]
    exact List.append_ne_nil_of_right_ne_nil _ (List.cons_ne_nil _ _)
  have isMeta : config.metaData = some (metaText directives) := by
    rw [configured.metaData, if_neg sendable.present]
  have fitsPath := sendable.fits
  have isUri : requestUri config.metaData =
      some (ofString "/document/ma?metadata=" ++ escapePath (metaText directives)) := by
    have inBuffer : ¬ longStringSize ≤ (escapePath (metaText directives)).length := by omega
    have whole : (ofString "/document/ma?metadata=" ++
        escapePath (metaText directives)).length ≤ longStringSize - 1 := by
      rw [List.length_append]
      omega
    rw [isMeta, requestUri, if_neg inBuffer, List.take_of_length_le whole]
  have isMetadata : tableGet [(ofString "metadata", metaText directives)] (ofString "metadata") =
      some (metaText directives) := rfl
  have notRaw : tableGet [(ofString "metadata", metaText directives)] (ofString "rawkomatext") =
      none := rfl
  have body : cut (decodencpy (cut (ofString "body=" ++ document))) =
      ofString "body" ++ 61 :: cut (decodencpy document) := by
    have bodyNoNul : 0 ∉ ofString "body=" ++ document := by
      rw [List.mem_append]
      rintro (inKey | inDocument)
      · exact absurd inKey (by decide)
      · exact noNul inDocument
    have decoded : decodencpy (ofString "body=" ++ document) =
        ofString "body=" ++ decodencpy document := by
      show decodencpy (98 :: 111 :: 100 :: 121 :: 61 :: document) = _
      rw [decodencpy_cons (by decide), decodencpy_cons (by decide), decodencpy_cons (by decide),
        decodencpy_cons (by decide), decodencpy_cons (by decide)]
      rfl
    rw [cut_eq_self bodyNoNul, decoded]
    rfl
  obtain ⟨key, behindKey⟩ :=
    takeWhile_ne (show (61 : UInt8) ∉ ofString "body" by decide) (cut (decodencpy document))
  have inLimit : ¬ documentSize ≤ (ofString "body=" ++ document).length := by
    have keyLength : (ofString "body=").length = 5 := rfl
    rw [List.length_append, keyLength]
    omega
  have decodedText : cut (decodencpy (metaText directives)) = metaText directives := by
    rw [decodencpy_eq_self_iff.mpr plain, cut_eq_self textNoNul]
  have found : ∀ parser, maFields parser analyze false ((metaText directives).length + 1) 0
      (metaText directives) =
        some ((indexedOf directives).flatMap (Directive.words parser analyze)) := by
    intro parser
    exact maFields_spec indexedFitting sendable.present
      (Nat.le_succ_of_le (length_le_flatMap_entry _)) 0
  have short : ¬ 20 < (ofString "body").length := by decide
  rw [Rmac.morphologicalAnalyzeHttp, isUri, Option.bind_some,
    parametersIn_query plain textNoNul noAmpersand, documentMa, isMetadata]
  simp only [Option.getD_some, if_neg nonempty, if_neg inLimit, body, key, behindKey, notRaw,
    decodedText, Option.isSome_none]
  rw [if_neg short]
  cases xml (cut (decodencpy document)) with
  | none => rfl
  | some parser =>
    dsimp only
    rw [found parser]
    rfl

/-- Every field that the local way finds words for has the same words by the remote way. -/
def SameWords (directives : List Directive) (document : List UInt8) (xml : XmlParser)
    (analyze : Analyzer Word) : Prop :=
  ∃ config, configure directives = some config ∧
    ∀ here, morphologicalAnalyzeLocal config xml analyze document = some here →
      ∃ remote, morphologicalAnalyzeHttp config xml analyze document = some (some remote) ∧
        ∀ field, wordsOf field remote = wordsOf field here

/-- For lines that are sent as they are, the remote way is the same as the local one for
every parser and every analyzer just when the document has no `+` and no escape. -/
theorem sameWords_iff_plain (fits : Fits directives) (sendable : Sendable directives)
    {document : List UInt8} (noNul : 0 ∉ document) (small : document.length + 5 < documentSize) :
    (∀ (Word : Type) (xml : XmlParser) (analyze : Analyzer Word),
      SameWords directives document xml analyze) ↔ Plain document := by
  obtain ⟨config, isConfig, configured⟩ := configure_spec fits sendable
  rw [← cut_decodencpy_iff noNul]
  constructor
  · intro same
    obtain ⟨other, isOther, agrees⟩ := same (List UInt8)
      (fun text => some fun _ => some (1 :: text)) fun text _ => [text]
    rw [isConfig] at isOther
    obtain rfl := Option.some.inj isOther
    obtain ⟨remote, isRemote, words⟩ := agrees _ rfl
    rw [configured.morphologicalAnalyzeHttp fits sendable _ noNul small] at isRemote
    obtain rfl := Option.some.inj (Option.some.inj isRemote)
    obtain ⟨directive, others, isCons⟩ := List.exists_cons_of_ne_nil sendable.present
    have indexed : directive ∈ indexedOf directives := by
      rw [isCons]
      exact List.mem_cons_self
    have distinctIndexed : ((indexedOf directives).map Directive.fieldId).Nodup :=
      fits.distinct.sublist (List.filter_sublist.map _)
    have one : ∀ text : List UInt8, wordsOf directive.fieldId ((indexedOf directives).flatMap
        (Directive.words (fun _ => some (1 :: text)) fun text _ => [text])) =
          [(directive.fieldId, 1 :: text)] := by
      intro text
      rw [wordsOf_flatMap]
      have contribution : ∀ other ∈ indexedOf directives, wordsOf directive.fieldId
          (Directive.words (fun _ => some (1 :: text)) (fun text _ => [text]) other) =
            if other.fieldId = directive.fieldId then
              Directive.words (fun _ => some (1 :: text)) (fun text _ => [text]) other
            else [] :=
        fun other _ => wordsOf_fieldWords directive.fieldId _ _ _
      rw [List.flatMap_congr contribution, flatMap_key distinctIndexed indexed]
      rfl
    have both := (words directive.fieldId).trans (configured.wordsOf_eq fits directive.fieldId)
    rw [one, one] at both
    exact (List.cons.inj (Prod.mk.inj (List.cons.inj both).1).2).2
  · intro plain Word xml analyze
    refine ⟨config, isConfig, fun here isHere => ?_⟩
    obtain ⟨parser, parses, rfl⟩ := Option.map_eq_some_iff.mp isHere
    refine ⟨_, ?_, fun field => (configured.wordsOf_eq fits field).symm⟩
    rw [configured.morphologicalAnalyzeHttp fits sendable xml noNul small, plain, parses]
    rfl

/-- Two fields that are configured in the other order of their ids. -/
def titleAndBody : List Directive :=
  [⟨ofString "1", ofString "Title", ofString "yes", ofString "20"⟩,
    ⟨ofString "0", ofString "Body", ofString "YES", ofString "7"⟩]

theorem titleAndBody_fits : Fits titleAndBody where
  fitting := by
    intro directive member
    simp only [titleAndBody, List.mem_cons, List.not_mem_nil, or_false] at member
    rcases member with rfl | rfl
    · exact ⟨List.all_eq_true.mp (by decide), by decide, by decide,
        List.all_eq_true.mp (by decide), by decide, by decide, by decide⟩
    · exact ⟨List.all_eq_true.mp (by decide), by decide, by decide,
        List.all_eq_true.mp (by decide), by decide, by decide, by decide⟩
  distinct := by decide

theorem titleAndBody_sendable : Sendable titleAndBody where
  present := by decide
  fits := by decide
  names := by
    intro directive member
    have member : directive ∈ titleAndBody := (List.mem_filter.mp member).1
    simp only [titleAndBody, List.mem_cons, List.not_mem_nil, or_false] at member
    rcases member with rfl | rfl
    · exact ⟨decodencpy_eq_self_iff.mp (by decide), by decide⟩
    · exact ⟨decodencpy_eq_self_iff.mp (by decide), by decide⟩

/-- A document with a percent sign that begins no escape. -/
theorem sameWords_iff_plain_percent :
    SameWords titleAndBody (ofString "100% a") (fun text => some fun _ => some text)
      (fun text _ => [text]) :=
  (sameWords_iff_plain titleAndBody_fits titleAndBody_sendable (by decide)
    (by decide +kernel)).mpr (decodencpy_eq_self_iff.mp (by decide)) (List UInt8) _ _

/-- A plus sign is a blank for the remote analyzer. -/
theorem plus_sign_becomes_blank :
    ¬ SameWords titleAndBody (ofString "C++") (fun text => some fun _ => some text)
      (fun text _ => [text]) := by
  rintro ⟨config, isConfig, agrees⟩
  obtain ⟨other, isOther, configured⟩ := configure_spec titleAndBody_fits titleAndBody_sendable
  rw [isOther] at isConfig
  obtain rfl := Option.some.inj isConfig
  obtain ⟨remote, isRemote, words⟩ := agrees _ rfl
  rw [configured.morphologicalAnalyzeHttp titleAndBody_fits titleAndBody_sendable _ (by decide)
    (by decide +kernel)] at isRemote
  obtain rfl := Option.some.inj (Option.some.inj isRemote)
  have both := (words 1).trans (configured.wordsOf_eq titleAndBody_fits 1)
  exact absurd both (by decide)

end Wisebot.Rmac
