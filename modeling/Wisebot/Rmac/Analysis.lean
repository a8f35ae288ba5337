import Mathlib.Data.List.TakeWhile
import Mathlib.Logic.Function.Basic
import Wisebot.Cdm.Reading

namespace Wisebot.Rmac

open Lib

/-! What a text becomes on its way through a request: `escape_path` of the sender and
`decodencpy` of the receiver, on the bytes before the terminator. -/

def isAlnum (byte : UInt8) : Bool :=
  Decimal.isDigit byte || (65 ≤ byte && byte ≤ 90) || (97 ≤ byte && byte ≤ 122)

/-- The bytes `$-_.+!*'(),:@&=~`. -/
def pathMarks : List UInt8 := [36, 45, 95, 46, 43, 33, 42, 39, 40, 41, 44, 58, 64, 38, 61, 126]

/-- `TEST_CHAR(c, T_ESCAPE_PATH_SEGMENT)`. -/
def escapesPathSegment (byte : UInt8) : Bool := !isAlnum byte && !pathMarks.contains byte

def c2xDigit (digit : UInt8) : UInt8 := if digit < 10 then 48 + digit else 87 + digit

def c2x (byte : UInt8) : List UInt8 := [37, c2xDigit (byte / 16), c2xDigit (byte % 16)]

def escapePath (path : List UInt8) : List UInt8 :=
  path.flatMap fun byte => if escapesPathSegment byte then c2x byte else [byte]

def isXDigit (byte : UInt8) : Bool :=
  Decimal.isDigit byte || (65 ≤ byte && byte ≤ 70) || (97 ≤ byte && byte ≤ 102)

def toUpper (byte : UInt8) : UInt8 := if 97 ≤ byte ∧ byte ≤ 122 then byte - 32 else byte

def hex (byte : UInt8) : UInt8 :=
  if Decimal.isDigit byte then byte - 48 else toUpper byte - 65 + 10

def plusToSpace (byte : UInt8) : UInt8 := if byte = 43 then 32 else byte

/-- A `+` is never the begin of an escape, so that the order of the two tests is free. -/
def decodencpy : List UInt8 → List UInt8
  | [] => []
  | [first] => [plusToSpace first]
  | [first, second] => [plusToSpace first, plusToSpace second]
  | first :: second :: third :: rest =>
    if first = 37 ∧ isXDigit second ∧ isXDigit third then
      (hex second * 16 + hex third) :: decodencpy rest
    else plusToSpace first :: decodencpy (second :: third :: rest)

def cut (text : List UInt8) : List UInt8 := text.takeWhile (· ≠ 0)

def startsHex : List UInt8 → Bool
  | first :: second :: _ => isXDigit first && isXDigit second
  | _ => false

/-- A text without `+` and without an escape. -/
def Plain : List UInt8 → Prop
  | [] => True
  | first :: rest => first ≠ 43 ∧ ¬ (first = 37 ∧ startsHex rest = true) ∧ Plain rest

variable {text : List UInt8}

theorem decodencpy_cons {first : UInt8} (literal : first ≠ 37) (rest : List UInt8) :
    decodencpy (first :: rest) = plusToSpace first :: decodencpy rest := by
  rcases rest with _ | ⟨second, _ | ⟨third, rest⟩⟩
  · rfl
  · rfl
  · rw [decodencpy, if_neg fun escape => literal escape.1]

theorem decodencpy_length_le (text : List UInt8) : (decodencpy text).length ≤ text.length := by
  induction text using decodencpy.induct with
  | case1 => exact le_rfl
  | case2 first => exact le_rfl
  | case3 first second => exact le_rfl
  | case4 first second third rest escape induction =>
    rw [decodencpy, if_pos escape]
    simp only [List.length_cons]
    omega
  | case5 first second third rest literal induction =>
    rw [decodencpy, if_neg literal, List.length_cons, List.length_cons]
    exact Nat.succ_le_succ induction

theorem decodencpy_eq_self_iff : decodencpy text = text ↔ Plain text := by
  have plus : ∀ byte, plusToSpace byte = byte ↔ byte ≠ 43 := by
    intro byte
    rw [plusToSpace]
    split
    next isPlus =>
      subst isPlus
      decide
    next notPlus => exact iff_of_true rfl notPlus
  induction text using decodencpy.induct with
  | case1 => exact iff_of_true rfl trivial
  | case2 first => simp [decodencpy, Plain, plus, startsHex]
  | case3 first second => simp [decodencpy, Plain, plus, startsHex]
  | case4 first second third rest escape induction =>
    have shorter := decodencpy_length_le rest
    constructor
    · intro same
      rw [decodencpy, if_pos escape] at same
      have lengths := congrArg List.length same
      simp only [List.length_cons] at lengths
      omega
    · rintro ⟨-, literal, -⟩
      refine absurd ⟨escape.1, ?_⟩ literal
      rw [startsHex, escape.2.1, escape.2.2]
      rfl
  | case5 first second third rest literal induction =>
    have noEscape : ¬ (first = 37 ∧ startsHex (second :: third :: rest) = true) := by
      rw [startsHex, Bool.and_eq_true]
      exact literal
    rw [decodencpy, if_neg literal, List.cons.injEq, plus]
    constructor
    · rintro ⟨notPlus, same⟩
      exact ⟨notPlus, noEscape, induction.mp same⟩
    · rintro ⟨notPlus, -, plain⟩
      exact ⟨notPlus, induction.mpr plain⟩

theorem Plain.map_plusToSpace (plain : Plain text) : text.map plusToSpace = text := by
  induction text with
  | nil => rfl
  | cons first rest induction =>
    rw [List.map_cons, induction plain.2.2, plusToSpace, if_neg plain.1]

theorem cut_decodencpy_iff (noNul : 0 ∉ text) :
    cut (decodencpy text) = text ↔ Plain text := by
  rw [← decodencpy_eq_self_iff]
  constructor
  · intro same
    have isPrefix : cut (decodencpy text) <+: decodencpy text := List.takeWhile_prefix _
    rw [same] at isPrefix
    exact (isPrefix.eq_of_length_le (decodencpy_length_le text)).symm
  · intro same
    rw [same, cut, List.takeWhile_eq_self_iff]
    intro byte member
    exact decide_eq_true (fun zero => noNul (zero ▸ member))

theorem hex_c2xDigit (digit : UInt8) (small : digit < 16) :
    isXDigit (c2xDigit digit) = true ∧ hex (c2xDigit digit) = digit := by
  have all : ∀ number < 16, isXDigit (c2xDigit (UInt8.ofNat number)) = true ∧
      hex (c2xDigit (UInt8.ofNat number)) = UInt8.ofNat number := by
    decide
  have found := all digit.toNat (UInt8.lt_iff_toNat_lt.mp small)
  rwa [UInt8.ofNat_toNat] at found

theorem decodencpy_c2x (byte : UInt8) (rest : List UInt8) :
    decodencpy (c2x byte ++ rest) = byte :: decodencpy rest := by
  obtain ⟨isHigh, high⟩ := hex_c2xDigit (byte / 16) (by
    rw [UInt8.lt_iff_toNat_lt, UInt8.toNat_div]
    have bound := byte.toNat_lt
    show byte.toNat / 16 < 16
    omega)
  obtain ⟨isLow, low⟩ := hex_c2xDigit (byte % 16) (by
    rw [UInt8.lt_iff_toNat_lt, UInt8.toNat_mod]
    exact Nat.mod_lt _ (by decide))
  have value : byte / 16 * 16 + byte % 16 = byte := by
    rw [← UInt8.toNat_inj]
    simp only [UInt8.toNat_add, UInt8.toNat_mul, UInt8.toNat_div, UInt8.toNat_mod]
    have bound := byte.toNat_lt
    show (byte.toNat / 16 * 16 % 256 + byte.toNat % 16) % 256 = byte.toNat
    omega
  show decodencpy (37 :: c2xDigit (byte / 16) :: c2xDigit (byte % 16) :: rest) = _
  rw [decodencpy, if_pos ⟨rfl, isHigh, isLow⟩, high, low, value]

theorem decodencpy_escapePath (text : List UInt8) :
    decodencpy (escapePath text) = text.map plusToSpace := by
  induction text with
  | nil => rfl
  | cons byte rest induction =>
    have split : escapePath (byte :: rest) =
        (if escapesPathSegment byte then c2x byte else [byte]) ++ escapePath rest :=
      List.flatMap_cons
    rw [split, List.map_cons]
    split
    next escapes =>
      have notPlus : byte ≠ 43 := by
        rintro rfl
        exact absurd escapes (by decide)
      rw [decodencpy_c2x, induction, plusToSpace, if_neg notPlus]
    next plain =>
      have literal : byte ≠ 37 := by
        rintro rfl
        exact absurd (by decide) plain
      rw [List.singleton_append, decodencpy_cons literal, induction]

/-! The index words of a document: extracted by the process itself or by a remote
server, which is sent the fields as a text in the path of the request and the document
in its body. A `none` result is an access outside of a buffer. -/

def shortStringSize : Nat := 64

def stringSize : Nat := 256

def longStringSize : Nat := 1024

def sb4MaxSendSize : Nat := 8192

def maxStdField : Nat := 32

def maxExtField : Nat := 64

def documentSize : Nat := 10000 * 1024

def ofString (string : String) : List UInt8 := string.toList.map Decimal.ofChar

def toLower (byte : UInt8) : UInt8 := if 65 ≤ byte ∧ byte ≤ 90 then byte + 32 else byte

structure FieldInfo where
  name : List UInt8
  index : Bool
  indexerMorpid : Int

/-- The arguments of a `Field` line. -/
structure Directive where
  id : List UInt8
  name : List UInt8
  index : List UInt8
  morpid : List UInt8

structure Config where
  fieldInfo : Nat → FieldInfo
  metaData : Option (List UInt8)
  metaDataSize : Nat

def Config.empty : Config := ⟨fun _ => ⟨[], false, 0⟩, none, 0⟩

def Directive.fieldId (directive : Directive) : Int := Cdm.atoi directive.id

def Directive.isIndexed (directive : Directive) : Bool :=
  decide (directive.index.map toLower = ofString "yes")

/-- The text `name#id:morpid^`. -/
def Directive.entry (directive : Directive) : List UInt8 :=
  directive.name ++ 35 :: directive.id ++ 58 :: directive.morpid ++ [94]

def setMetaData (config : Config) (directive : Directive) : Option Config :=
  if directive.fieldId < 0 ∨ maxExtField ≤ directive.fieldId then some config
  else
    let id := directive.fieldId.toNat
    let named : FieldInfo :=
      { config.fieldInfo id with name := directive.name.take shortStringSize }
    if directive.isIndexed = false then
      some { config with fieldInfo := Function.update config.fieldInfo id named }
    else if maxStdField ≤ directive.fieldId then
      some { config with
        fieldInfo := Function.update config.fieldInfo id { named with index := true } }
    else if stringSize ≤ directive.entry.length then none
    else
      let fieldInfo := Function.update config.fieldInfo id
        { named with index := true, indexerMorpid := Cdm.atoi directive.morpid }
      let metaData := config.metaData.getD []
      let metaDataSize := if config.metaData.isNone then stringSize else config.metaDataSize
      let left := metaDataSize - metaData.length
      if left < directive.entry.length + 1 then
        if sb4MaxSendSize ≤ metaDataSize + stringSize then
          some ⟨fieldInfo, some metaData, metaDataSize⟩
        else
          some ⟨fieldInfo, some (metaData ++ directive.entry.take (left + stringSize)),
            metaDataSize + stringSize⟩
      else some ⟨fieldInfo, some (metaData ++ directive.entry.take left), metaDataSize⟩

def configureFrom : Config → List Directive → Option Config
  | config, [] => some config
  | config, directive :: directives =>
    (setMetaData config directive).bind fun config => configureFrom config directives

def configure (directives : List Directive) : Option Config :=
  configureFrom Config.empty directives

/-- `sb_run_xmlparser_parselen` and `sb_run_xmlparser_retrieve_field`: a document that
parses gives the values of its paths. -/
abbrev XmlParser := List UInt8 → Option (List UInt8 → Option (List UInt8))

abbrev Analyzer (Word : Type) := List UInt8 → Int → List Word

variable {Word : Type}

def rmasMorphologicalAnalyzer (analyze : Analyzer Word) (fieldId : Int) (input : List UInt8)
    (morphemeId : Int) : List (Int × Word) :=
  (analyze input morphemeId).map fun word => (fieldId, word)

def documentPath (name : List UInt8) : List UInt8 := ofString "/Document/" ++ name

def fieldValue (parser : List UInt8 → Option (List UInt8)) (name : List UInt8) :
    Option (List UInt8) :=
  (parser (documentPath name)).filter fun value => value.length ≠ 0

def fieldWords (parser : List UInt8 → Option (List UInt8)) (analyze : Analyzer Word)
    (fieldId : Int) (name : List UInt8) (morpid : Int) : List (Int × Word) :=
  match fieldValue parser name with
  | none => []
  | some value => rmasMorphologicalAnalyzer analyze fieldId value morpid

def morphologicalAnalyzeLocal (config : Config) (xml : XmlParser) (analyze : Analyzer Word)
    (cdmData : List UInt8) : Option (List (Int × Word)) :=
  (xml cdmData).map fun parser =>
    (List.range maxExtField).flatMap fun i =>
      if (config.fieldInfo i).index then
        fieldWords parser analyze i (config.fieldInfo i).name (config.fieldInfo i).indexerMorpid
      else []

/-- The path of the request; without an indexed field there is no text to escape. -/
def requestUri (metaData : Option (List UInt8)) : Option (List UInt8) :=
  match metaData with
  | none => none
  | some metaData =>
    if longStringSize ≤ (escapePath metaData).length then none
    else
      some ((ofString "/document/ma?metadata=" ++ escapePath metaData).take
        (longStringSize - 1))

def queryOf (uri : List UInt8) : List UInt8 :=
  ((uri.dropWhile (· ≠ 63)).drop 1).takeWhile (· ≠ 35)

/-- A `key=value` of the query. -/
def parameter (token : List UInt8) : Option (List UInt8 × List UInt8) :=
  match token.dropWhile (· ≠ 61) with
  | [] => none
  | _ :: value => some (cut (decodencpy (token.takeWhile (· ≠ 61))), cut (decodencpy value))

def parametersIn (query : List UInt8) : List (List UInt8 × List UInt8) :=
  ((query.splitOn 38).filter (· ≠ [])).filterMap parameter

def tableGet (table : List (List UInt8 × List UInt8)) (key : List UInt8) : Option (List UInt8) :=
  (table.reverse.find? fun entry => entry.1.map toLower = key.map toLower).map Prod.snd

/-- The name with its id, the analyzer id and what is behind them. -/
def getFieldAndMaIdFromMetaData (text : List UInt8) :
    Option (List UInt8 × Int × List UInt8) :=
  let fieldName := text.takeWhile (· ≠ 58)
  match text.dropWhile (· ≠ 58) with
  | [] => none
  | _ :: rest =>
    let ids := rest.takeWhile (· ≠ 94)
    if stringSize ≤ fieldName.length ∨ 4 ≤ ids.length then none
    else
      match rest.dropWhile (· ≠ 94) with
      | [] => none
      | _ :: rest => some (fieldName, Cdm.atoi ids, rest)

/-- The loop over the fields, with the id of the next field that has none. -/
def maFields (parser : List UInt8 → Option (List UInt8)) (analyze : Analyzer Word)
    (isRawKomaText : Bool) :
    (fuel : Nat) → (fieldId : Int) → List UInt8 → Option (List (Int × Word))
  | 0, _, _ => none
  | fuel + 1, fieldId, text =>
    match getFieldAndMaIdFromMetaData text with
    | none => none
    | some (fieldName, maId, rest) =>
      let fieldIdIsGiven := fieldName.contains 35
      let fid := (fieldName.dropWhile (· ≠ 35)).drop 1
      let name := fieldName.takeWhile (· ≠ 35)
      if 3 ≤ fid.length ∨ stringSize ≤ (documentPath name).length then none
      else
        let fieldId := if fieldIdIsGiven then Cdm.atoi fid else fieldId
        let words := fieldWords parser analyze fieldId name
          (if isRawKomaText then 100 else maId)
        let next :=
          if fieldIdIsGiven ∧ fieldValue parser name = none then fieldId else fieldId + 1
        if rest = [] then some words
        else (maFields parser analyze isRawKomaText fuel next rest).map (words ++ ·)

/-- The answer of the handler, or `FAIL`. -/
def documentMa (xml : XmlParser) (analyze : Analyzer Word)
    (parametersIn : List (List UInt8 × List UInt8)) (requestBody : List UInt8) :
    Option (Option (List (Int × Word))) :=
  let metadata := (tableGet parametersIn (ofString "metadata")).getD []
  if metadata = [] then some none
  else if documentSize ≤ requestBody.length then some none
  else
    let cannedDoc := cut (decodencpy (cut requestBody))
    match cannedDoc.dropWhile (· ≠ 61) with
    | [] => some none
    | _ :: document =>
      if 20 < (cannedDoc.takeWhile (· ≠ 61)).length then some none
      else
        match xml document with
        | none => some none
        | some parser =>
          let metadata := cut (decodencpy metadata)
          (maFields parser analyze (tableGet parametersIn (ofString "rawkomatext")).isSome
            (metadata.length + 1) 0 metadata).map some

def morphologicalAnalyzeHttp (config : Config) (xml : XmlParser) (analyze : Analyzer Word)
    (cdmData : List UInt8) : Option (Option (List (Int × Word))) :=
  (requestUri config.metaData).bind fun uri =>
    documentMa xml analyze (parametersIn (queryOf uri)) (ofString "body=" ++ cdmData)

end Wisebot.Rmac
