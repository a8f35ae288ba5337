import Mathlib.Data.List.TakeWhile
import Wisebot.Lib.Decimal

namespace Wisebot.Common.SavedRegistry

open Wisebot.Lib

/-! Registries as text and back: `save_registry` and `restore_registry`. -/

abbrev Text := List UInt8

def shortStringSize : Nat := 64

def saveRegistryChunk : Nat := 4

def blank : UInt8 := 32

def newline : UInt8 := 10

/-- `enum save_flag` -/
inductive SaveFlag
  | save
  | dontSave
deriving DecidableEq, Repr

/-- The parts of `registry_t` that are saved; the data has `size` bytes. -/
structure Registry where
  name : Text
  data : Text
  flag : SaveFlag
deriving DecidableEq, Repr

def Registry.size (r : Registry) : Nat := r.data.length

/-- A `module`, which may have no table of registries. -/
structure Module where
  name : Text
  registry : Option (List Registry)

/-- `"0123456789ABCDEF"` -/
def hexDigit (half : UInt8) : UInt8 := if half < 10 then 48 + half else 55 + half

def bin2hex (bin : Text) : Text :=
  bin.flatMap fun byte => [hexDigit (byte / 16), hexDigit (byte % 16)]

/-- The data in pieces of `SAVE_REGISTRY_CHUNK` bytes, the last of which may be shorter. -/
def chunks : Text → List Text
  | [] => []
  | first :: second :: third :: fourth :: rest => [first, second, third, fourth] :: chunks rest
  | last => [last]

/-- What the loop over the chunks prints, with `len` characters on the line so far. -/
def saveChunks : (len : Nat) → List Text → Text
  | _, [] => []
  | len, chunk :: rest =>
    if len + (saveRegistryChunk * 2 + 1) > shortStringSize - 5 then
      [blank, 92, newline] ++ blank :: bin2hex chunk ++
        saveChunks (saveRegistryChunk * 2 + 1) rest
    else blank :: bin2hex chunk ++ saveChunks (len + (saveRegistryChunk * 2 + 1)) rest

def header (module : Text) (r : Registry) : Text :=
  module ++ blank :: r.name ++ blank :: Decimal.print r.size ++ [blank, 92, newline]

def saveEach (module : Text) (r : Registry) : Text :=
  if r.flag = .dontSave then []
  else header module r ++ saveChunks 0 (chunks r.data) ++ [newline]

/-- Whether something was printed, and what; an empty name stands for all modules. -/
def saveRegistry (modules : List Module) (moduleName : Text) : Bool × Text :=
  let listed := modules.filter fun m =>
    (moduleName = [] ∨ m.name = moduleName) ∧ m.registry.isSome
  (!listed.isEmpty,
    listed.flatMap fun m => (m.registry.getD []).flatMap (saveEach m.name))

/-- The pieces that `fgets` reads with a buffer of `size` bytes. -/
def fgetsAll (size : Nat) : (line : Text) → Text → List Text
  | line, [] => if line = [] then [] else [line]
  | line, byte :: rest =>
    if byte = newline ∨ line.length + 2 = size then (line ++ [byte]) :: fgetsAll size [] rest
    else fgetsAll size (line ++ [byte]) rest

def isBlank (byte : UInt8) : Bool := byte = 32 || byte = 9

/-- What `strtok` finds one after the other. -/
def strtok : (token : Text) → Text → List Text
  | token, [] => if token = [] then [] else [token]
  | token, byte :: rest =>
    if isBlank byte then if token = [] then strtok [] rest else token :: strtok [] rest
    else strtok (token ++ [byte]) rest

def isSpace (byte : UInt8) : Bool := byte = 32 || (9 ≤ byte && byte ≤ 13)

def atoi (text : Text) : Int :=
  let trimmed := text.dropWhile isSpace
  if trimmed.head? = some 45 then -(Decimal.readFrom 0 trimmed.tail : Int)
  else if trimmed.head? = some 43 then Decimal.readFrom 0 trimmed.tail
  else Decimal.readFrom 0 trimmed

/-- One digit as `hex2bin` reads it. -/
def hexValue (digit : UInt8) : UInt8 :=
  if 48 ≤ digit ∧ digit ≤ 57 then digit - 48
  else if 65 ≤ digit ∧ digit ≤ 70 then digit - 55
  else if 97 ≤ digit ∧ digit ≤ 102 then digit - 87
  else 0

def hex2bin : (size : Nat) → Text → Text
  | size + 1, high :: low :: rest => (hexValue high * 16 + hexValue low) :: hex2bin size rest
  | _, _ => []

/-- The registries of the process by their names, as `registry_get` finds them. -/
abbrev Registries := Text → Option Registry

/-- The registry whose data is being read and how much has been read of it; none where the
line is completed. -/
structure Restoring where
  registries : Registries
  reading : Option (Text × Nat)

def readHeader (state : Restoring) (buf : Text) : Restoring :=
  match strtok [] buf with
  | _ :: name :: more =>
    match state.registries name with
    | none => state
    | some r =>
      if r.flag = .dontSave then state
      else
        match more with
        | [] => state
        | sizeStr :: _ =>
          if (r.size : Int) ≠ atoi sizeStr then state
          else { state with reading := some (name, 0) }
  | _ => state

/-- The bytes of a token: only so many characters are copied to `chunk`. -/
def chunkBytes (token : Text) : Text :=
  let chunk := token.take (saveRegistryChunk * 2)
  hex2bin (chunk.length / 2) chunk

/-- The loop over the tokens of a line. Not all of the data may be read yet, or so much of
it that the line is given up. -/
def readTokens : List Text → (j : Nat) → (data : Text) → Nat × Text × Bool
  | [], j, data => (j, data, false)
  | token :: rest, j, data =>
    if j < data.length then
      let len := (token.take (saveRegistryChunk * 2)).length / 2
      if data.length < j + len then (j, data, true)
      else readTokens rest (j + len) (data.take j ++ chunkBytes token ++ data.drop (j + len))
    else (j, data, false)

/-- A line of data without the backslash at its end; it is compared with the last two
characters, so that nothing is there to compare where a line has only one. -/
def withoutBackslash (buf : Text) : Option Text :=
  if buf.length < 2 then none
  else if buf.drop (buf.length - 2) = [92, newline] then some (buf.take (buf.length - 2))
  else some buf

def readData (state : Restoring) (name : Text) (j : Nat) (buf : Text) : Option Restoring :=
  (state.registries name).bind fun r =>
    (withoutBackslash buf).map fun line =>
      let done := readTokens (strtok [] line) j r.data
      { registries := Function.update state.registries name (some { r with data := done.2.1 })
        reading := if done.2.2 ∨ done.1 = r.size then none else some (name, done.1) }

/-- One round of the loop; `none` is a read outside of the buffer. -/
def restoreLine (state : Restoring) (line : Text) : Option Restoring :=
  let buf := line.takeWhile fun byte => byte ≠ 0
  if buf.head? = some 35 then some state
  else
    match state.reading with
    | none => some (readHeader state buf)
    | some (name, j) =>
      if buf.head? ≠ some blank then some state else readData state name j buf

def restoreLines : List Text → Restoring → Option Restoring
  | [], state => some state
  | line :: rest, state => (restoreLine state line).bind (restoreLines rest)

def restoreRegistry (registries : Registries) (text : Text) : Option Registries :=
  (restoreLines (fgetsAll shortStringSize [] text) ⟨registries, none⟩).map Restoring.registries

end Wisebot.Common.SavedRegistry
