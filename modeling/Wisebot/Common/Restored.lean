import Mathlib.Data.Fintype.Basic
import Wisebot.Common.Registry

namespace Wisebot.Common.SavedRegistry

variable {r : Registry} {row : List Text} {registries : Registries} {state : Restoring}
  {ending chunk : Text}

open Wisebot.Lib

/-! What was saved is restored. -/

def isHexDigit (byte : UInt8) : Bool :=
  (48 ≤ byte && byte ≤ 57) || (65 ≤ byte && byte ≤ 70) || (97 ≤ byte && byte ≤ 102)

theorem hexDigit_spec {half : UInt8} (small : half.toNat < 16) :
    isHexDigit (hexDigit half) = true ∧ hexValue (hexDigit half) = half := by
  have each : ∀ digit : Fin 16, isHexDigit (hexDigit (UInt8.ofNat digit)) = true ∧
      hexValue (hexDigit (UInt8.ofNat digit)) = UInt8.ofNat digit := by decide
  have isHalf := each ⟨half.toNat, small⟩
  rwa [UInt8.ofNat_toNat] at isHalf

theorem toNat_high (byte : UInt8) : (byte / 16).toNat < 16 := by
  have bound := byte.toNat_lt
  rw [UInt8.toNat_div]
  show byte.toNat / 16 < 16
  omega

theorem toNat_low (byte : UInt8) : (byte % 16).toNat < 16 := by
  rw [UInt8.toNat_mod]
  exact Nat.mod_lt _ (by decide)

theorem halves (byte : UInt8) : byte / 16 * 16 + byte % 16 = byte := by
  have bound := byte.toNat_lt
  apply UInt8.toNat_inj.mp
  rw [UInt8.toNat_add, UInt8.toNat_mul, UInt8.toNat_div, UInt8.toNat_mod]
  show (byte.toNat / 16 * 16 % 256 + byte.toNat % 16) % 256 = byte.toNat
  omega

theorem bin2hex_cons (byte : UInt8) (rest : Text) :
    bin2hex (byte :: rest) = hexDigit (byte / 16) :: hexDigit (byte % 16) :: bin2hex rest := rfl

theorem length_bin2hex (bin : Text) : (bin2hex bin).length = 2 * bin.length := by
  induction bin with
  | nil => rfl
  | cons byte rest ih =>
    rw [bin2hex_cons, List.length_cons, List.length_cons, ih, List.length_cons]
    omega

theorem bin2hex_isHex {bin : Text} : ∀ byte ∈ bin2hex bin, isHexDigit byte = true := by
  intro byte within
  obtain ⟨source, _, isOne⟩ := List.mem_flatMap.mp within
  rcases List.mem_cons.mp isOne with rfl | isOther
  · exact (hexDigit_spec (toNat_high source)).1
  · rw [List.mem_singleton.mp isOther]
    exact (hexDigit_spec (toNat_low source)).1

theorem hex2bin_bin2hex (bin tail : Text) : hex2bin bin.length (bin2hex bin ++ tail) = bin := by
  induction bin with
  | nil =>
    cases tail with
    | nil => rfl
    | cons _ _ => rfl
  | cons byte rest ih =>
    rw [bin2hex_cons, List.length_cons, List.cons_append, List.cons_append, hex2bin, ih,
      (hexDigit_spec (toNat_high byte)).2, (hexDigit_spec (toNat_low byte)).2, halves]

theorem fgetsAll_line {size : Nat} {line word : Text} (oneLine : newline ∉ word)
    (short : line.length + word.length + 1 < size) (rest : Text) :
    fgetsAll size line (word ++ newline :: rest) =
      (line ++ word ++ [newline]) :: fgetsAll size [] rest := by
  induction word generalizing line with
  | nil =>
    rw [List.nil_append, fgetsAll, if_pos (.inl rfl), List.append_nil]
  | cons byte word ih =>
    have notEnd : ¬ (byte = newline ∨ line.length + 2 = size) := by
      rintro (rfl | full)
      · exact oneLine List.mem_cons_self
      · simp only [List.length_cons] at short
        omega
    have isShort : (line ++ [byte]).length + word.length + 1 < size := by
      simp only [List.length_append, List.length_cons, List.length_nil] at short ⊢
      omega
    have others := ih (fun within => oneLine (List.mem_cons_of_mem _ within)) isShort
    rw [List.cons_append, fgetsAll, if_neg notEnd, others, List.append_assoc line]
    rfl

theorem strtok_append {word : Text} (noBlank : ∀ byte ∈ word, isBlank byte = false)
    (token rest : Text) : strtok token (word ++ rest) = strtok (token ++ word) rest := by
  induction word generalizing token with
  | nil => rw [List.nil_append, List.append_nil]
  | cons byte word ih =>
    have notBlank : ¬ isBlank byte = true := by
      rw [noBlank byte List.mem_cons_self]
      decide
    rw [List.cons_append, strtok, if_neg notBlank,
      ih fun other within => noBlank other (List.mem_cons_of_mem _ within), ← List.append_cons]

theorem strtok_blank {token : Text} (notEmpty : token ≠ []) (rest : Text) :
    strtok token (blank :: rest) = token :: strtok [] rest := by
  rw [strtok, if_pos (by rfl), if_neg notEmpty]

theorem strtok_word {word : Text} (noBlank : ∀ byte ∈ word, isBlank byte = false)
    (notEmpty : word ≠ []) (rest : Text) :
    strtok [] (word ++ blank :: rest) = word :: strtok [] rest := by
  rw [strtok_append noBlank, List.nil_append, strtok_blank notEmpty]

theorem not_isBlank_of_isHex {byte : UInt8} (isHex : isHexDigit byte = true) :
    isBlank byte = false ∧ byte ≠ newline ∧ byte ≠ 0 ∧ byte ≠ 92 := by
  refine ⟨?_, ?_, ?_, ?_⟩
  · rw [isBlank, Bool.or_eq_false_iff, decide_eq_false_iff_not, decide_eq_false_iff_not]
    constructor
    · rintro rfl
      cases isHex
    · rintro rfl
      cases isHex
  · rintro rfl
    cases isHex
  · rintro rfl
    cases isHex
  · rintro rfl
    cases isHex

structure IsChunk (chunk : Text) : Prop where
  notEmpty : chunk ≠ []
  few : chunk.length ≤ saveRegistryChunk

/-- A token of a line of data: the last one of the line ends with the newline. -/
def Token (chunk token : Text) : Prop :=
  token = bin2hex chunk ∨ token = bin2hex chunk ++ [newline]

theorem IsChunk.hex_ne_nil (isChunk : IsChunk chunk) : bin2hex chunk ≠ [] := by
  intro isEmpty
  have lengths := congrArg List.length isEmpty
  have positive := List.length_pos_iff.mpr isChunk.notEmpty
  rw [length_bin2hex, List.length_nil] at lengths
  omega

theorem Token.bytes {token : Text} (isToken : Token chunk token) (isChunk : IsChunk chunk) :
    (token.take (saveRegistryChunk * 2)).length / 2 = chunk.length ∧
      chunkBytes token = chunk := by
  have few : chunk.length ≤ 4 := isChunk.few
  have isLength := length_bin2hex chunk
  have general : ∀ tail : Text, tail.length ≤ 1 →
      ((bin2hex chunk ++ tail).take 8).length / 2 = chunk.length ∧
        chunkBytes (bin2hex chunk ++ tail) = chunk := by
    intro tail short
    have length : ((bin2hex chunk ++ tail).take 8).length / 2 = chunk.length := by
      rw [List.length_take, List.length_append, isLength]
      omega
    refine ⟨length, ?_⟩
    show hex2bin (((bin2hex chunk ++ tail).take 8).length / 2) ((bin2hex chunk ++ tail).take 8) = _
    rw [length, List.take_append, List.take_of_length_le (by omega)]
    exact hex2bin_bin2hex chunk _
  rcases isToken with rfl | rfl
  · have whole := general [] (Nat.zero_le _)
    rwa [List.append_nil] at whole
  · exact general [newline] (le_refl _)

def rowText (row : List Text) : Text := row.flatMap fun chunk => blank :: bin2hex chunk

theorem rowText_cons (chunk : Text) (row : List Text) :
    rowText (chunk :: row) = blank :: (bin2hex chunk ++ rowText row) := rfl

/-- How a line may end, and the tokens behind its last chunk. -/
def Ends (ending : Text) (more : List Text) : Prop :=
  ∀ chunk, IsChunk chunk → ∃ token, Token chunk token ∧
    strtok (bin2hex chunk) ending = token :: more

theorem ends_newline : Ends [newline] [] := by
  intro chunk isChunk
  refine ⟨_, .inr rfl, ?_⟩
  rw [strtok, if_neg (by decide), strtok, if_neg (by simp)]

theorem ends_blank : Ends [blank] [] := by
  intro chunk isChunk
  refine ⟨_, .inl rfl, ?_⟩
  rw [strtok_blank isChunk.hex_ne_nil]
  rfl

theorem ends_backslash : Ends [blank, 92, newline] [[92, newline]] := by
  intro chunk isChunk
  refine ⟨_, .inl rfl, ?_⟩
  rw [strtok_blank isChunk.hex_ne_nil]
  rfl

theorem strtok_row {more : List Text} (ends : Ends ending more)
    (isRow : ∀ chunk ∈ row, IsChunk chunk) (isChunk : IsChunk chunk) :
    ∃ tokens, List.Forall₂ Token (chunk :: row) tokens ∧
      strtok [] (rowText (chunk :: row) ++ ending) = tokens ++ more := by
  induction row generalizing chunk with
  | nil =>
    obtain ⟨token, isToken, split⟩ := ends chunk isChunk
    refine ⟨[token], .cons isToken .nil, ?_⟩
    rw [rowText_cons, List.cons_append, strtok, if_pos (by rfl), if_pos rfl, List.append_assoc,
      strtok_append fun byte within => (not_isBlank_of_isHex (bin2hex_isHex byte within)).1]
    exact split
  | cons next row ih =>
    obtain ⟨tokens, same, split⟩ := ih
      (fun other within => isRow other (List.mem_cons_of_mem _ within))
      (isRow next List.mem_cons_self)
    refine ⟨bin2hex chunk :: tokens, .cons (.inl rfl) same, ?_⟩
    rw [rowText_cons, List.cons_append, strtok, if_pos (by rfl), if_pos rfl, List.append_assoc,
      strtok_append fun byte within => (not_isBlank_of_isHex (bin2hex_isHex byte within)).1,
      List.nil_append, rowText_cons, List.cons_append, strtok_blank isChunk.hex_ne_nil]
    rw [rowText_cons, List.cons_append, strtok, if_pos (by rfl), if_pos rfl] at split
    rw [split]
    rfl

theorem exists_chunk {tokens : List Text} (same : List.Forall₂ Token row tokens) {token : Text}
    (within : token ∈ tokens) : ∃ chunk, Token chunk token := by
  induction same with
  | nil => cases within
  | cons isToken _ ih =>
    rcases List.mem_cons.mp within with rfl | isOther
    · exact ⟨_, isToken⟩
    · exact ih isOther

theorem readTokens_row {tokens : List Text} (same : List.Forall₂ Token row tokens)
    (isRow : ∀ chunk ∈ row, IsChunk chunk) {done old : Text}
    (room : row.flatten.length ≤ old.length) :
    readTokens tokens done.length (done ++ old) =
      ((done ++ row.flatten).length, done ++ row.flatten ++ old.drop row.flatten.length, false) := by
  induction same generalizing done old with
  | nil =>
    rw [List.flatten_nil, List.append_nil, List.length_nil, List.drop_zero]
    rfl
  | cons isToken same ih =>
    rename_i chunk token row tokens
    have isChunk := isRow chunk List.mem_cons_self
    have positive := List.length_pos_iff.mpr isChunk.notEmpty
    obtain ⟨isLength, isBytes⟩ := isToken.bytes isChunk
    have isBoth : (chunk ++ row.flatten).length = chunk.length + row.flatten.length :=
      List.length_append
    rw [List.flatten_cons, isBoth] at room
    have goes : done.length < (done ++ old).length := by
      rw [List.length_append]
      omega
    have within : ¬ (done ++ old).length <
        done.length + (token.take (saveRegistryChunk * 2)).length / 2 := by
      rw [List.length_append, isLength]
      omega
    have isRoom : row.flatten.length ≤ (old.drop chunk.length).length := by
      rw [List.length_drop]
      omega
    have others := @ih (fun other member => isRow other (List.mem_cons_of_mem _ member))
      (done ++ chunk) (old.drop chunk.length) isRoom
    rw [readTokens, if_pos goes]
    show (if _ then _ else _) = _
    rw [if_neg within, isLength, isBytes, List.take_left' rfl, ← List.drop_drop,
      List.drop_left' rfl, ← List.length_append, others, List.flatten_cons, List.drop_drop,
      List.append_assoc done chunk, isBoth]

def IsWord (text : Text) : Prop :=
  text ≠ [] ∧ ∀ byte ∈ text, byte ≠ 0 ∧ byte ≠ newline ∧ isBlank byte = false

/-- The name of a registry, which does not consist of hexadecimal digits only. -/
def IsName (text : Text) : Prop := IsWord text ∧ ¬ ∀ byte ∈ text, isHexDigit byte = true

instance : DecidablePred IsWord := fun _ => inferInstanceAs (Decidable (_ ∧ _))

instance : DecidablePred IsName := fun _ => inferInstanceAs (Decidable (_ ∧ _))

def Named (registries : Registries) : Prop :=
  ∀ name, registries name ≠ none → IsName name

theorem Named.hex (named : Named registries) {text : Text}
    (isHex : ∀ byte ∈ text, isHexDigit byte = true) : registries text = none := by
  by_contra isThere
  exact (named text isThere).2 isHex

theorem Named.line (named : Named registries) {text : Text} (hasNewline : newline ∈ text) :
    registries text = none := by
  by_contra isThere
  exact ((named text isThere).1.2 newline hasNewline).2.1 rfl

theorem Named.token (named : Named registries) {token : Text} (isToken : Token chunk token) :
    registries token = none := by
  rcases isToken with rfl | rfl
  · exact named.hex bin2hex_isHex
  · exact named.line (List.mem_append_right _ List.mem_cons_self)

theorem readHeader_of_tokens {buf : Text}
    (unknown : ∀ token ∈ strtok [] buf, state.registries token = none) :
    readHeader state buf = state := by
  rw [readHeader]
  rcases isTokens : strtok [] buf with _ | ⟨module, _ | ⟨name, more⟩⟩
  · rfl
  · rfl
  · rw [isTokens] at unknown
    have isUnknown := unknown name (List.mem_cons_of_mem _ List.mem_cons_self)
    simp only [isUnknown]

structure IsRow (row : List Text) : Prop where
  notEmpty : row ≠ []
  few : row.length ≤ 6
  chunks : ∀ chunk ∈ row, IsChunk chunk

theorem length_rowText_le (isRow : ∀ chunk ∈ row, IsChunk chunk) :
    (rowText row).length ≤ 9 * row.length := by
  induction row with
  | nil => exact le_refl _
  | cons chunk row ih =>
    have few : chunk.length ≤ 4 := (isRow chunk List.mem_cons_self).few
    have others := ih fun other within => isRow other (List.mem_cons_of_mem _ within)
    rw [rowText_cons, List.length_cons, List.length_append, length_bin2hex, List.length_cons]
    omega

theorem mem_rowText {byte : UInt8} (within : byte ∈ rowText row) :
    byte ≠ 0 ∧ byte ≠ newline ∧ byte ≠ 92 := by
  obtain ⟨chunk, _, isByte⟩ := List.mem_flatMap.mp within
  rcases List.mem_cons.mp isByte with rfl | isHex
  · decide
  · obtain ⟨_, notNewline, notNull, notBackslash⟩ :=
      not_isBlank_of_isHex (bin2hex_isHex byte isHex)
    exact ⟨notNull, notNewline, notBackslash⟩

structure IsEnding (ending : Text) : Prop where
  short : ending.length ≤ 2
  string : ∀ byte ∈ ending, byte ≠ 0 ∧ byte ≠ newline

theorem isEnding_nil : IsEnding [] := ⟨Nat.zero_le _, fun _ never => by cases never⟩

theorem isEnding_backslash : IsEnding [blank, 92] := ⟨le_refl _, by decide +kernel⟩

theorem fgetsAll_row (isRow : IsRow row) (isEnding : IsEnding ending) (rest : Text) :
    fgetsAll shortStringSize [] (rowText row ++ ending ++ newline :: rest) =
      (rowText row ++ ending ++ [newline]) :: fgetsAll shortStringSize [] rest := by
  have few := isRow.few
  have length := length_rowText_le isRow.chunks
  have short := isEnding.short
  refine fgetsAll_line ?_ ?_ rest
  · intro within
    rcases List.mem_append.mp within with inRow | inEnding
    · exact (mem_rowText inRow).2.1 rfl
    · exact (isEnding.string newline inEnding).2 rfl
  · rw [List.length_append]
    show 0 + _ + 1 < 64
    omega

theorem takeWhile_row (isEnding : IsEnding ending) :
    (rowText row ++ ending ++ [newline]).takeWhile (fun byte => byte ≠ 0) =
      rowText row ++ ending ++ [newline] := by
  refine List.takeWhile_eq_self_iff.mpr fun byte within => decide_eq_true ?_
  rcases List.mem_append.mp within with before | last
  · rcases List.mem_append.mp before with inRow | inEnding
    · exact (mem_rowText inRow).1
    · exact (isEnding.string byte inEnding).1
  · rw [List.mem_singleton.mp last]
    decide

/-- A line of a record that is not read is taken for a header, and no registry has the
name that stands there. -/
theorem restoreLine_skip (notReading : state.reading = none) (named : Named state.registries)
    (isRow : IsRow row) (isEnding : IsEnding ending) {more : List Text}
    (ends : Ends (ending ++ [newline]) more)
    (noNames : ∀ token ∈ more, state.registries token = none) :
    restoreLine state (rowText row ++ ending ++ [newline]) = some state := by
  obtain ⟨chunk, chunks, rfl⟩ := List.exists_cons_of_ne_nil isRow.notEmpty
  obtain ⟨tokens, same, split⟩ := strtok_row ends
    (fun other within => isRow.chunks other (List.mem_cons_of_mem _ within))
    (isRow.chunks chunk List.mem_cons_self)
  rw [← List.append_assoc] at split
  have unknown : ∀ token ∈ strtok [] (rowText (chunk :: chunks) ++ ending ++ [newline]),
      state.registries token = none := by
    intro token within
    rw [split] at within
    rcases List.mem_append.mp within with isToken | isMore
    · obtain ⟨source, isSource⟩ := exists_chunk same isToken
      exact named.token isSource
    · exact noNames token isMore
  rw [restoreLine, takeWhile_row isEnding, notReading]
  show (if (rowText (chunk :: chunks) ++ ending ++ [newline]).head? = some 35 then _ else _) = _
  have notComment : (rowText (chunk :: chunks) ++ ending ++ [newline]).head? ≠ some 35 :=
    fun never => by cases never
  rw [if_neg notComment]
  exact congrArg some (readHeader_of_tokens unknown)

theorem restoreLine_read {name : Text} {done old : Text}
    (isReading : state.reading = some (name, done.length))
    (isRegistry : state.registries name = some r) (isData : r.data = done ++ old)
    (isRow : IsRow row) (room : row.flatten.length ≤ old.length) {line : Text}
    (isEnding : IsEnding ending) (isLine : withoutBackslash (rowText row ++ ending ++ [newline]) =
      some (rowText row ++ line)) (ends : Ends line []) :
    restoreLine state (rowText row ++ ending ++ [newline]) =
      some {
        registries := Function.update state.registries name
          (some { r with data := done ++ row.flatten ++ old.drop row.flatten.length })
        reading := if row.flatten.length = old.length then none
          else some (name, (done ++ row.flatten).length) } := by
  obtain ⟨chunk, chunks, isCons⟩ := List.exists_cons_of_ne_nil isRow.notEmpty
  obtain ⟨tokens, same, split⟩ := strtok_row ends
    (fun other within => isRow.chunks other (by rw [isCons]; exact List.mem_cons_of_mem _ within))
    (isRow.chunks chunk (by rw [isCons]; exact List.mem_cons_self))
  rw [← isCons, List.append_nil] at split
  rw [← isCons] at same
  have notComment : (rowText row ++ ending ++ [newline]).head? ≠ some 35 := by
    rw [isCons]
    exact fun never => by cases never
  have isBlank : ¬ (rowText row ++ ending ++ [newline]).head? ≠ some blank := by
    rw [isCons]
    exact not_not.mpr rfl
  have tokensRead := @readTokens_row _ _ same isRow.chunks done old room
  have atEnd : (done ++ row.flatten).length = r.size ↔ row.flatten.length = old.length := by
    rw [Registry.size, isData, List.length_append, List.length_append]
    omega
  rw [restoreLine, takeWhile_row isEnding, isReading]
  show (if (rowText row ++ ending ++ [newline]).head? = some 35 then _ else _) = _
  rw [if_neg notComment]
  show (if (rowText row ++ ending ++ [newline]).head? ≠ some blank then _ else _) = _
  rw [if_neg isBlank, readData, isRegistry, Option.bind_some, isLine, Option.map_some, split,
    isData, tokensRead]
  simp only [Bool.false_eq_true, false_or, atEnd]

theorem withoutBackslash_newline (isRow : IsRow row) :
    withoutBackslash (rowText row ++ [] ++ [newline]) = some (rowText row ++ [newline]) := by
  obtain ⟨chunk, chunks, rfl⟩ := List.exists_cons_of_ne_nil isRow.notEmpty
  have long : ¬ (rowText (chunk :: chunks) ++ [newline]).length < 2 := by
    rw [rowText_cons, List.length_append, List.length_cons, List.length_singleton]
    omega
  rw [List.append_nil, withoutBackslash, if_neg long, if_neg]
  intro isBackslash
  have within : (92 : UInt8) ∈ (rowText (chunk :: chunks) ++ [newline]).drop
      ((rowText (chunk :: chunks) ++ [newline]).length - 2) := by
    rw [isBackslash]
    exact List.mem_cons_self
  rcases List.mem_append.mp (List.mem_of_mem_drop within) with inRow | isNewline
  · exact (mem_rowText inRow).2.2 rfl
  · cases List.mem_singleton.mp isNewline

theorem withoutBackslash_backslash (row : List Text) :
    withoutBackslash (rowText row ++ [blank, 92] ++ [newline]) = some (rowText row ++ [blank]) := by
  have isText : rowText row ++ [blank, 92] ++ [newline] = rowText row ++ [blank] ++ [92, newline] := by
    rw [List.append_assoc, List.append_assoc]
    rfl
  have isLength : (rowText row ++ [blank] ++ [92, newline]).length - 2 =
      (rowText row ++ [blank]).length := by
    rw [List.length_append]
    rfl
  rw [isText, withoutBackslash, isLength, List.drop_left, List.take_left, if_pos rfl, if_neg]
  rw [List.length_append]
  show ¬ _ + 2 < 2
  omega

def rows : List Text → List (List Text)
  | first :: second :: third :: fourth :: fifth :: sixth :: seventh :: rest =>
    [first, second, third, fourth, fifth, sixth] :: rows (seventh :: rest)
  | last => [last]

def dataText : List (List Text) → Text
  | [] => []
  | [last] => rowText last ++ [newline]
  | row :: next :: rest => rowText row ++ [blank, 92, newline] ++ dataText (next :: rest)

theorem rows_ne_nil (pieces : List Text) : rows pieces ≠ [] := by
  fun_cases rows pieces with
  | case1 => exact List.cons_ne_nil _ _
  | case2 => exact List.cons_ne_nil _ _

theorem flatten_rows (pieces : List Text) : (rows pieces).flatten = pieces := by
  fun_induction rows pieces with
  | case1 first second third fourth fifth sixth seventh rest ih =>
    rw [List.flatten_cons, ih]
    rfl
  | case2 => exact List.flatten_singleton

theorem length_le_six {last : List Text}
    (short : ∀ (first second third fourth fifth sixth seventh : Text) (rest : List Text),
      last = first :: second :: third :: fourth :: fifth :: sixth :: seventh :: rest → False) :
    last.length ≤ 6 := by
  rcases last with _ | ⟨a, _ | ⟨b, _ | ⟨c, _ | ⟨d, _ | ⟨e, _ | ⟨f, _ | ⟨g, rest⟩⟩⟩⟩⟩⟩⟩
  case cons.cons.cons.cons.cons.cons.cons => exact absurd rfl (short a b c d e f g rest)
  all_goals simp

theorem rows_short {pieces : List Text} (notEmpty : pieces ≠ []) :
    ∀ row ∈ rows pieces, row ≠ [] ∧ row.length ≤ 6 := by
  fun_induction rows pieces with
  | case1 first second third fourth fifth sixth seventh rest ih =>
    intro row within
    rcases List.mem_cons.mp within with rfl | isOther
    · exact ⟨List.cons_ne_nil _ _, le_refl _⟩
    · exact ih (List.cons_ne_nil _ _) row isOther
  | case2 last short =>
    intro row within
    rw [List.mem_singleton.mp within]
    exact ⟨notEmpty, length_le_six short⟩

theorem saveChunks_few {len : Nat} {pieces : List Text} (few : len + 9 * pieces.length ≤ 59) :
    saveChunks len pieces = rowText pieces := by
  induction pieces generalizing len with
  | nil => rfl
  | cons chunk pieces ih =>
    rw [List.length_cons] at few
    have isShort : ¬ len + (saveRegistryChunk * 2 + 1) > shortStringSize - 5 := by
      show ¬ 59 < len + 9
      omega
    have others : len + (saveRegistryChunk * 2 + 1) + 9 * pieces.length ≤ 59 := by
      show len + 9 + 9 * pieces.length ≤ 59
      omega
    rw [saveChunks, if_neg isShort, ih others]
    rfl

theorem saveChunks_rows (pieces : List Text) :
    saveChunks 0 pieces ++ [newline] = dataText (rows pieces) := by
  fun_induction rows pieces with
  | case1 first second third fourth fifth sixth seventh rest ih =>
    obtain ⟨next, others, isRows⟩ := List.exists_cons_of_ne_nil (rows_ne_nil (seventh :: rest))
    rw [isRows] at ih ⊢
    have unfolded : saveChunks 0
        (first :: second :: third :: fourth :: fifth :: sixth :: seventh :: rest) =
        blank :: bin2hex first ++ (blank :: bin2hex second ++ (blank :: bin2hex third ++
          (blank :: bin2hex fourth ++ (blank :: bin2hex fifth ++ (blank :: bin2hex sixth ++
            ([blank, 92, newline] ++ saveChunks 0 (seventh :: rest))))))) := rfl
    rw [dataText, ← ih, unfolded]
    simp only [rowText, List.flatMap_cons, List.flatMap_nil, List.append_assoc, List.append_nil,
      List.cons_append]
  | case2 last short =>
    have few := length_le_six short
    rw [saveChunks_few (by omega)]
    rfl

theorem flatten_chunks (data : Text) : (chunks data).flatten = data := by
  fun_induction chunks data with
  | case1 => rfl
  | case2 first second third fourth rest ih =>
    rw [List.flatten_cons, ih]
    rfl
  | case3 => exact List.flatten_singleton

theorem chunks_isChunk (data : Text) : ∀ chunk ∈ chunks data, IsChunk chunk := by
  fun_induction chunks data with
  | case1 => exact fun _ never => by cases never
  | case2 first second third fourth rest ih =>
    intro chunk within
    rcases List.mem_cons.mp within with rfl | isOther
    · exact ⟨List.cons_ne_nil _ _, le_refl _⟩
    · exact ih chunk isOther
  | case3 last notEmpty short =>
    intro chunk within
    rw [List.mem_singleton.mp within]
    rcases last with _ | ⟨a, _ | ⟨b, _ | ⟨c, _ | ⟨d, rest⟩⟩⟩⟩
    · exact absurd rfl notEmpty
    · exact ⟨List.cons_ne_nil _ _, Nat.le_add_left 1 3⟩
    · exact ⟨List.cons_ne_nil _ _, Nat.le_add_left 2 2⟩
    · exact ⟨List.cons_ne_nil _ _, Nat.le_add_left 3 1⟩
    · exact absurd rfl (short a b c d rest)

theorem chunks_ne_nil {data : Text} (notEmpty : data ≠ []) : chunks data ≠ [] := by
  intro isEmpty
  have whole := flatten_chunks data
  rw [isEmpty] at whole
  exact notEmpty whole.symm

theorem rows_isRow {data : Text} (notEmpty : data ≠ []) :
    ∀ row ∈ rows (chunks data), IsRow row := by
  intro row within
  obtain ⟨isNotEmpty, few⟩ := rows_short (chunks_ne_nil notEmpty) row within
  refine ⟨isNotEmpty, few, fun chunk isMember => chunks_isChunk data chunk ?_⟩
  rw [← flatten_rows (chunks data)]
  exact List.mem_flatten.mpr ⟨row, within, isMember⟩

theorem restoreLines_skip {lines : List (List Text)} (isRows : ∀ row ∈ lines, IsRow row)
    (notReading : state.reading = none) (named : Named state.registries) (rest : Text) :
    restoreLines (fgetsAll shortStringSize [] (dataText lines ++ rest)) state =
      restoreLines (fgetsAll shortStringSize [] rest) state := by
  fun_induction dataText lines with
  | case1 => rfl
  | case2 last =>
    have isRow := isRows last List.mem_cons_self
    have pieces := fgetsAll_row isRow isEnding_nil rest
    have skipped := restoreLine_skip notReading named isRow isEnding_nil
      (ends_newline : Ends ([] ++ [newline]) []) fun _ never => by cases never
    rw [List.append_nil] at pieces skipped
    rw [List.append_assoc]
    show restoreLines (fgetsAll shortStringSize [] (rowText last ++ newline :: rest)) state = _
    rw [pieces, restoreLines, skipped, Option.bind_some]
  | case3 row next others ih =>
    have isRow := isRows row List.mem_cons_self
    have pieces := fgetsAll_row isRow isEnding_backslash (dataText (next :: others) ++ rest)
    have skipped := restoreLine_skip notReading named isRow isEnding_backslash
      (ends_backslash : Ends ([blank, 92] ++ [newline]) [[92, newline]]) fun token within =>
        named.line (by rw [List.mem_singleton.mp within]; decide)
    have isText : rowText row ++ [blank, 92, newline] ++ dataText (next :: others) ++ rest =
        rowText row ++ [blank, 92] ++ newline :: (dataText (next :: others) ++ rest) := by
      simp only [List.append_assoc, List.cons_append, List.nil_append]
    rw [isText, pieces, restoreLines, skipped, Option.bind_some]
    exact ih fun other within => isRows other (List.mem_cons_of_mem _ within)

theorem IsRow.flatten_pos (isRow : IsRow row) : 0 < row.flatten.length := by
  obtain ⟨chunk, chunks, rfl⟩ := List.exists_cons_of_ne_nil isRow.notEmpty
  have positive := List.length_pos_iff.mpr (isRow.chunks chunk List.mem_cons_self).notEmpty
  rw [List.flatten_cons, List.length_append]
  omega

theorem restoreLines_read {lines : List (List Text)} (isRows : ∀ row ∈ lines, IsRow row)
    (notEmpty : lines ≠ []) {name : Text} {done old : Text}
    (isReading : state.reading = some (name, done.length))
    (isRegistry : state.registries name = some r) (isData : r.data = done ++ old)
    (whole : lines.flatten.flatten.length = old.length) (rest : Text) :
    restoreLines (fgetsAll shortStringSize [] (dataText lines ++ rest)) state =
      restoreLines (fgetsAll shortStringSize [] rest)
        { registries := Function.update state.registries name
            (some { r with data := done ++ lines.flatten.flatten })
          reading := none } := by
  fun_induction dataText lines generalizing state r done old with
  | case1 => exact absurd rfl notEmpty
  | case2 last =>
    have isRow := isRows last List.mem_cons_self
    rw [List.flatten_singleton] at whole ⊢
    have pieces := fgetsAll_row isRow isEnding_nil rest
    have readLine := restoreLine_read isReading isRegistry isData isRow (Nat.le_of_eq whole)
      isEnding_nil (withoutBackslash_newline isRow) ends_newline
    rw [List.append_nil] at pieces readLine
    rw [List.append_assoc]
    show restoreLines (fgetsAll shortStringSize [] (rowText last ++ newline :: rest)) state = _
    rw [pieces, restoreLines, readLine, Option.bind_some, if_pos whole, whole, List.drop_length,
      List.append_nil]
  | case3 row next others ih =>
    have isRow := isRows row List.mem_cons_self
    have nextRow := (isRows next (List.mem_cons_of_mem _ List.mem_cons_self)).flatten_pos
    have isAll : (row :: next :: others).flatten.flatten =
        row.flatten ++ (next :: others).flatten.flatten := by
      rw [List.flatten_cons, List.flatten_append]
    have isWhole : row.flatten.length + (next :: others).flatten.flatten.length = old.length := by
      rw [← whole, isAll, List.length_append]
    have more : next.flatten.length ≤ (next :: others).flatten.flatten.length := by
      rw [List.flatten_cons, List.flatten_append, List.length_append]
      exact Nat.le_add_right _ _
    have pieces := fgetsAll_row isRow isEnding_backslash (dataText (next :: others) ++ rest)
    have readLine := restoreLine_read isReading isRegistry isData isRow (by omega)
      isEnding_backslash (withoutBackslash_backslash row) ends_blank
    have notWhole : row.flatten.length ≠ old.length := by omega
    have isText : rowText row ++ [blank, 92, newline] ++ dataText (next :: others) ++ rest =
        rowText row ++ [blank, 92] ++ newline :: (dataText (next :: others) ++ rest) := by
      simp only [List.append_assoc, List.cons_append, List.nil_append]
    rw [if_neg notWhole] at readLine
    rw [isText, pieces, restoreLines, readLine, Option.bind_some]
    have isNow : ({ r with data := done ++ row.flatten ++ old.drop row.flatten.length } :
        Registry).data = (done ++ row.flatten) ++ old.drop row.flatten.length := rfl
    have isRest : (next :: others).flatten.flatten.length =
        (old.drop row.flatten.length).length := by
      rw [List.length_drop]
      omega
    rw [ih (fun other within => isRows other (List.mem_cons_of_mem _ within))
      (List.cons_ne_nil _ _) rfl (Function.update_self ..) isNow isRest, Function.update_idem, isAll,
      List.append_assoc done row.flatten (next :: others).flatten.flatten]

/-- A name of a module is that of its source file. -/
def IsModuleName (module : Text) : Prop := IsWord module ∧ module.head? ≠ some 35

instance : DecidablePred IsModuleName := fun _ => inferInstanceAs (Decidable (_ ∧ _))

structure Saved (module : Text) (r : Registry) : Prop where
  isModule : IsModuleName module
  isName : IsWord r.name
  notEmpty : r.data ≠ []
  short : (header module r).length < shortStringSize

theorem print_isWord (number : Nat) : IsWord (Decimal.print number) := by
  refine ⟨Decimal.print_ne_nil number, fun byte within => ?_⟩
  have digit := Decimal.isDigit_of_mem_print within
  refine ⟨?_, ?_, ?_⟩
  · rintro rfl
    cases digit
  · rintro rfl
    cases digit
  · rw [isBlank, Bool.or_eq_false_iff, decide_eq_false_iff_not, decide_eq_false_iff_not]
    constructor
    · rintro rfl
      cases digit
    · rintro rfl
      cases digit

theorem atoi_print (number : Nat) : atoi (Decimal.print number) = number := by
  obtain ⟨first, others, isCons⟩ := List.exists_cons_of_ne_nil (Decimal.print_ne_nil number)
  have digit : Decimal.isDigit first = true := by
    refine @Decimal.isDigit_of_mem_print number first ?_
    rw [isCons]
    exact List.mem_cons_self
  have notSpace : isSpace first = false := by
    rw [isSpace, Bool.or_eq_false_iff, Bool.and_eq_false_iff, decide_eq_false_iff_not,
      decide_eq_false_iff_not, decide_eq_false_iff_not]
    rw [Decimal.isDigit, Bool.and_eq_true, decide_eq_true_iff, decide_eq_true_iff,
      UInt8.le_iff_toNat_le] at digit
    have low : 48 ≤ first.toNat := digit.1
    refine ⟨?_, .inr ?_⟩
    · rintro rfl
      exact absurd low (by decide)
    · rw [UInt8.le_iff_toNat_le]
      show ¬ first.toNat ≤ 13
      omega
  have isTrimmed : (Decimal.print number).dropWhile isSpace = Decimal.print number := by
    rw [isCons, List.dropWhile_cons, notSpace]
    rfl
  have notSign : ∀ sign : UInt8, Decimal.isDigit sign = false →
      (Decimal.print number).head? ≠ some sign := by
    rintro sign notDigit isSign
    rw [isCons] at isSign
    cases isSign
    rw [digit] at notDigit
    cases notDigit
  have isRead := @Decimal.readFrom_print number [] fun _ never => by cases never
  rw [List.append_nil] at isRead
  rw [atoi, isTrimmed, if_neg (notSign 45 rfl), if_neg (notSign 43 rfl), isRead]

theorem header_tokens {module : Text} (saved : Saved module r) :
    strtok [] (header module r) =
      [module, r.name, Decimal.print r.size, [92, newline]] := by
  have size := print_isWord r.size
  rw [header, List.append_assoc, List.cons_append, List.append_assoc, List.cons_append]
  rw [strtok_word (fun byte within => (saved.isModule.1.2 byte within).2.2) saved.isModule.1.1,
    strtok_word (fun byte within => (saved.isName.2 byte within).2.2) saved.isName.1,
    strtok_word (fun byte within => (size.2 byte within).2.2) size.1]
  rfl

def accept (registries : Registries) (saved : Registry) : Registries :=
  match registries saved.name with
  | none => registries
  | some r =>
    if r.flag = .dontSave ∨ r.size ≠ saved.size then registries
    else Function.update registries saved.name (some { r with data := saved.data })

theorem accept_none {saved : Registry} (unknown : registries saved.name = none) :
    accept registries saved = registries := by
  rw [accept, unknown]

theorem accept_other {saved : Registry} (isRegistry : registries saved.name = some r)
    (other : r.flag = .dontSave ∨ r.size ≠ saved.size) : accept registries saved = registries := by
  rw [accept, isRegistry]
  exact if_pos other

theorem accept_same {saved : Registry} (isRegistry : registries saved.name = some r)
    (isSaved : r.flag ≠ .dontSave) (same : r.size = saved.size) :
    accept registries saved =
      Function.update registries saved.name (some { r with data := saved.data }) := by
  rw [accept, isRegistry]
  exact if_neg (not_or.mpr ⟨isSaved, not_not.mpr same⟩)

theorem header_string {module : Text} (saved : Saved module r) :
    ∃ word, header module r = word ++ [newline] ∧ newline ∉ word ∧
      ∀ byte ∈ header module r, byte ≠ 0 := by
  have size := print_isWord r.size
  have parts : ∀ byte ∈ module ++ blank :: r.name ++ blank :: Decimal.print r.size ++ [blank, 92],
      byte ≠ 0 ∧ byte ≠ newline := by
    intro byte within
    rcases List.mem_append.mp within with before | last
    · rcases List.mem_append.mp before with first | isSize
      · rcases List.mem_append.mp first with isModule | isName
        · exact ⟨(saved.isModule.1.2 byte isModule).1, (saved.isModule.1.2 byte isModule).2.1⟩
        · rcases List.mem_cons.mp isName with rfl | isName
          · decide
          · exact ⟨(saved.isName.2 byte isName).1, (saved.isName.2 byte isName).2.1⟩
      · rcases List.mem_cons.mp isSize with rfl | isSize
        · decide
        · exact ⟨(size.2 byte isSize).1, (size.2 byte isSize).2.1⟩
    · rcases List.mem_cons.mp last with rfl | last
      · decide
      · rw [List.mem_singleton.mp last]
        decide
  have isText : header module r =
      module ++ blank :: r.name ++ blank :: Decimal.print r.size ++ [blank, 92] ++ [newline] := by
    rw [List.append_assoc _ [blank, 92]]
    rfl
  refine ⟨_, isText, fun within => (parts newline within).2 rfl, fun byte within => ?_⟩
  rw [isText] at within
  rcases List.mem_append.mp within with before | last
  · exact (parts byte before).1
  · rw [List.mem_singleton.mp last]
    decide

theorem fgetsAll_header {module : Text} (saved : Saved module r) (rest : Text) :
    fgetsAll shortStringSize [] (header module r ++ rest) =
      header module r :: fgetsAll shortStringSize [] rest := by
  obtain ⟨word, isWord, oneLine, _⟩ := header_string saved
  have short := saved.short
  rw [isWord, List.length_append, List.length_singleton] at short
  rw [isWord, List.append_assoc]
  refine fgetsAll_line oneLine ?_ rest
  show 0 + word.length + 1 < shortStringSize
  omega

theorem restoreLine_header {module : Text} (saved : Saved module r)
    (notReading : state.reading = none) :
    restoreLine state (header module r) = some (readHeader state (header module r)) := by
  obtain ⟨_, _, _, string⟩ := header_string saved
  have isString : (header module r).takeWhile (fun byte => byte ≠ 0) = header module r :=
    List.takeWhile_eq_self_iff.mpr fun byte within => decide_eq_true (string byte within)
  have notComment : (header module r).head? ≠ some 35 := by
    rw [header, List.append_assoc, List.append_assoc,
      List.head?_append_of_ne_nil _ saved.isModule.1.1]
    exact saved.isModule.2
  rw [restoreLine, isString, notReading]
  exact if_neg notComment

theorem restoreLines_record {module : Text} (saved : Saved module r) (named : Named registries)
    (rest : Text) :
    restoreLines (fgetsAll shortStringSize []
        (header module r ++ saveChunks 0 (chunks r.data) ++ [newline] ++ rest))
        ⟨registries, none⟩ =
      restoreLines (fgetsAll shortStringSize [] rest) ⟨accept registries r, none⟩ := by
  have isRows := rows_isRow saved.notEmpty
  have isText : header module r ++ saveChunks 0 (chunks r.data) ++ [newline] ++ rest =
      header module r ++ (dataText (rows (chunks r.data)) ++ rest) := by
    rw [← saveChunks_rows, List.append_assoc, List.append_assoc, List.append_assoc]
  rw [isText, fgetsAll_header saved, restoreLines, restoreLine_header saved rfl, Option.bind_some,
    readHeader, header_tokens saved]
  show restoreLines _ (match registries r.name with | none => _ | some own => _) = _
  cases isOwn : registries r.name with
  | none =>
    rw [accept_none isOwn]
    exact restoreLines_skip isRows rfl named rest
  | some own =>
    show restoreLines _ (if own.flag = .dontSave then _
      else if (own.size : Int) ≠ atoi (Decimal.print r.size) then _ else _) = _
    rw [atoi_print]
    by_cases notSaved : own.flag = .dontSave
    · rw [if_pos notSaved, accept_other isOwn (.inl notSaved)]
      exact restoreLines_skip isRows rfl named rest
    · rw [if_neg notSaved]
      by_cases sameSize : own.size = r.size
      · have isLength : (rows (chunks r.data)).flatten.flatten.length = own.data.length := by
          rw [flatten_rows, flatten_chunks]
          exact sameSize.symm
        have isSame : ¬ (own.size : Int) ≠ r.size := by
          rw [sameSize]
          exact not_not.mpr rfl
        have isReading : (⟨registries, some (r.name, 0)⟩ : Restoring).reading =
            some (r.name, ([] : Text).length) := rfl
        have wholly := restoreLines_read isRows (rows_ne_nil _) isReading isOwn
          (List.nil_append own.data).symm isLength rest
        rw [flatten_rows, flatten_chunks] at wholly
        rw [if_neg isSame, accept_same isOwn notSaved sameSize]
        exact wholly
      · have isOther : (own.size : Int) ≠ r.size := fun same => sameSize (Int.ofNat_inj.mp same)
        rw [if_pos isOther, accept_other isOwn (.inr sameSize)]
        exact restoreLines_skip isRows rfl named rest

theorem Named.accept (named : Named registries) (saved : Registry) :
    Named (accept registries saved) := by
  intro name isThere
  refine named name fun unknown => isThere ?_
  cases isOwn : registries saved.name with
  | none =>
    rw [accept_none isOwn]
    exact unknown
  | some own =>
    by_cases other : own.flag = .dontSave ∨ own.size ≠ saved.size
    · rw [accept_other isOwn other]
      exact unknown
    · obtain ⟨isSaved, same⟩ := not_or.mp other
      have isOther : name ≠ saved.name := by
        rintro rfl
        rw [unknown] at isOwn
        cases isOwn
      rw [accept_same isOwn isSaved (not_not.mp same), Function.update_of_ne isOther]
      exact unknown

def records (modules : List Module) (moduleName : Text) : List (Text × Registry) :=
  (modules.filter fun m => (moduleName = [] ∨ m.name = moduleName) ∧ m.registry.isSome).flatMap
    fun m => ((m.registry.getD []).filter fun r => r.flag ≠ .dontSave).map fun r => (m.name, r)

theorem saveRegistry_eq (modules : List Module) (moduleName : Text) :
    (saveRegistry modules moduleName).2 = (records modules moduleName).flatMap fun record =>
      header record.1 record.2 ++ saveChunks 0 (chunks record.2.data) ++ [newline] := by
  rw [saveRegistry, records, List.flatMap_assoc]
  refine congrArg (List.flatMap · _) (funext fun m => ?_)
  induction m.registry.getD [] with
  | nil => rfl
  | cons r rest ih =>
    rw [List.flatMap_cons, ih, List.filter_cons, saveEach]
    by_cases notSaved : r.flag = .dontSave
    · rw [if_pos notSaved, if_neg (by simp [notSaved])]
      rfl
    · rw [if_neg notSaved, if_pos (by simp [notSaved])]
      rfl

theorem restoreRegistry_eq (named : Named registries) {saved : List (Text × Registry)}
    (isSaved : ∀ record ∈ saved, Saved record.1 record.2) :
    restoreRegistry registries (saved.flatMap fun record =>
      header record.1 record.2 ++ saveChunks 0 (chunks record.2.data) ++ [newline]) =
      some ((saved.map Prod.snd).foldl accept registries) := by
  rw [restoreRegistry]
  induction saved generalizing registries with
  | nil => rfl
  | cons record rest ih =>
    rw [List.flatMap_cons, restoreLines_record (isSaved record List.mem_cons_self) named]
    exact ih (named.accept record.2) fun other within =>
      isSaved other (List.mem_cons_of_mem _ within)

def Registry.Matches (r : Registry) (name : Text) (saved : Registry) : Prop :=
  saved.name = name ∧ saved.size = r.size

instance (r : Registry) (name : Text) : DecidablePred (r.Matches name) :=
  fun _ => inferInstanceAs (Decidable (_ ∧ _))

/-- A registry after the records of the text, of which the last one counts. -/
def Registry.restored (r : Registry) (name : Text) (saved : List Registry) : Registry :=
  if r.flag = .dontSave then r
  else { r with
    data := saved.foldl (fun data one => if r.Matches name one then one.data else data) r.data }

theorem Registry.restored_nil (r : Registry) (name : Text) : r.restored name [] = r := by
  rw [Registry.restored]
  split
  · rfl
  · rfl

theorem Registry.restored_unmatched {name : Text} {one : Registry}
    (noMatch : ¬ r.Matches name one) : r.restored name [one] = r := by
  rw [Registry.restored, List.foldl_cons, List.foldl_nil, if_neg noMatch]
  split
  · rfl
  · rfl

theorem Registry.restored_matched {name : Text} {one : Registry} (isSaved : r.flag ≠ .dontSave)
    (isMatch : r.Matches name one) :
    r.restored name [one] = { r with data := one.data } := by
  rw [Registry.restored, if_neg isSaved, List.foldl_cons, List.foldl_nil, if_pos isMatch]

theorem accept_apply (registries : Registries) (saved : Registry) (name : Text) :
    accept registries saved name = (registries name).map fun r => r.restored name [saved] := by
  by_cases isName : saved.name = name
  · subst isName
    cases isOwn : registries saved.name with
    | none =>
      rw [accept_none isOwn, isOwn]
      rfl
    | some own =>
      by_cases notSaved : own.flag = .dontSave
      · rw [accept_other isOwn (.inl notSaved), isOwn, Option.map_some, Registry.restored,
          if_pos notSaved]
      · rw [Option.map_some]
        by_cases same : own.size = saved.size
        · rw [accept_same isOwn notSaved same, Function.update_self,
            Registry.restored_matched notSaved ⟨rfl, same.symm⟩]
        · rw [accept_other isOwn (.inr same), isOwn,
            Registry.restored_unmatched fun both => same both.2.symm]
  · have unchanged : accept registries saved name = registries name := by
      cases isOwn : registries saved.name with
      | none => rw [accept_none isOwn]
      | some own =>
        by_cases other : own.flag = .dontSave ∨ own.size ≠ saved.size
        · rw [accept_other isOwn other]
        · obtain ⟨isSaved, same⟩ := not_or.mp other
          rw [accept_same isOwn isSaved (not_not.mp same)]
          exact Function.update_of_ne (Ne.symm isName) _ _
    rw [unchanged]
    cases registries name with
    | none => rfl
    | some r =>
      rw [Option.map_some, Registry.restored_unmatched fun both => isName both.1]

theorem Registry.restored_cons (r : Registry) (name : Text) (one : Registry)
    (saved : List Registry) :
    (r.restored name [one]).restored name saved = r.restored name (one :: saved) := by
  rw [Registry.restored, Registry.restored, Registry.restored]
  by_cases notSaved : r.flag = .dontSave
  · rw [if_pos notSaved, if_pos notSaved, if_pos notSaved]
  · rw [if_neg notSaved, if_neg notSaved, List.foldl_cons, List.foldl_nil, List.foldl_cons]
    by_cases isMatch : r.Matches name one
    · have sameMatches : ∀ other, Registry.Matches { r with data := one.data } name other ↔
          r.Matches name other := by
        intro other
        rw [Registry.Matches, Registry.Matches, ← isMatch.2]
        rfl
      rw [if_pos isMatch, if_neg notSaved]
      simp only [sameMatches]
    · rw [if_neg isMatch, if_neg notSaved]

theorem foldl_accept (saved : List Registry) (registries : Registries) (name : Text) :
    saved.foldl accept registries name = (registries name).map fun r => r.restored name saved := by
  induction saved generalizing registries with
  | nil =>
    rw [List.foldl_nil]
    cases registries name with
    | none => rfl
    | some r => rw [Option.map_some, Registry.restored_nil]
  | cons one saved ih =>
    rw [List.foldl_cons, ih, accept_apply, Option.map_map]
    refine congrArg (Option.map · _) (funext fun r => ?_)
    exact r.restored_cons name one saved

theorem restored_none {name : Text} {saved : List Registry}
    (noMatch : ∀ one ∈ saved, ¬ r.Matches name one) : r.restored name saved = r := by
  induction saved with
  | nil => exact r.restored_nil name
  | cons one saved ih =>
    rw [← Registry.restored_cons, Registry.restored_unmatched (noMatch one List.mem_cons_self)]
    exact ih fun other within => noMatch other (List.mem_cons_of_mem _ within)

theorem restored_same {name : Text} {saved : List Registry} (isSaved : r.flag ≠ .dontSave)
    {data : Text} (isMatch : ∃ one ∈ saved, r.Matches name one)
    (same : ∀ one ∈ saved, r.Matches name one → one.data = data) :
    r.restored name saved = { r with data := data } := by
  induction saved generalizing r with
  | nil =>
    obtain ⟨one, never, _⟩ := isMatch
    cases never
  | cons one saved ih =>
    have others : ∀ other ∈ saved, r.Matches name other → other.data = data :=
      fun other within => same other (List.mem_cons_of_mem _ within)
    rw [← Registry.restored_cons]
    by_cases oneMatches : r.Matches name one
    · have isData := same one List.mem_cons_self oneMatches
      have isSize : Registry.size { r with data := data } = r.size := by
        rw [← oneMatches.2, ← isData]
        rfl
      rw [Registry.restored_matched isSaved oneMatches, isData]
      by_cases later : ∃ other ∈ saved, r.Matches name other
      · have again := ih (r := { r with data := data }) isSaved
          (by obtain ⟨other, within, isName, sameSize⟩ := later
              exact ⟨other, within, isName, sameSize.trans isSize.symm⟩)
          (fun other within matching =>
            others other within ⟨matching.1, matching.2.trans isSize⟩)
        exact again
      · refine restored_none fun other within matching => later ?_
        exact ⟨other, within, matching.1, matching.2.trans isSize⟩
    · rw [Registry.restored_unmatched oneMatches]
      refine ih isSaved ?_ others
      obtain ⟨other, within, matching⟩ := isMatch
      rcases List.mem_cons.mp within with rfl | isOther
      · exact absurd matching oneMatches
      · exact ⟨other, isOther, matching⟩

/-- Restoring what was saved gives each registry that is saved the data that the text has
for it, whatever else is in the text, and leaves all others alone. -/
theorem restoreRegistry_saveRegistry {registries : Registries} (named : Named registries)
    {modules : List Module} {moduleName : Text}
    (isSaved : ∀ record ∈ records modules moduleName, Saved record.1 record.2) :
    ∃ after, restoreRegistry registries (saveRegistry modules moduleName).2 = some after ∧
      ∀ name, (registries name = none → after name = none) ∧
        ∀ r, registries name = some r →
          (r.flag = .dontSave → after name = some r) ∧
          ((∀ record ∈ records modules moduleName, ¬ r.Matches name record.2) →
            after name = some r) ∧
          ∀ data, r.flag ≠ .dontSave →
            (∃ record ∈ records modules moduleName, r.Matches name record.2) →
            (∀ record ∈ records modules moduleName, r.Matches name record.2 →
              record.2.data = data) →
            after name = some { r with data := data } := by
  have isText := restoreRegistry_eq named isSaved
  rw [← saveRegistry_eq] at isText
  refine ⟨_, isText, fun name => ⟨fun unknown => ?_, fun r isRegistry => ⟨fun notSaved => ?_,
    fun noMatch => ?_, fun data isFlag isMatch same => ?_⟩⟩⟩
  · rw [foldl_accept, unknown]
    rfl
  · rw [foldl_accept, isRegistry, Option.map_some, Registry.restored, if_pos notSaved]
  · rw [foldl_accept, isRegistry, Option.map_some, restored_none]
    intro one within
    obtain ⟨record, isRecord, rfl⟩ := List.mem_map.mp within
    exact noMatch record isRecord
  · rw [foldl_accept, isRegistry, Option.map_some, restored_same isFlag]
    · obtain ⟨record, isRecord, matching⟩ := isMatch
      exact ⟨_, List.mem_map_of_mem isRecord, matching⟩
    · intro one within matching
      obtain ⟨record, isRecord, rfl⟩ := List.mem_map.mp within
      exact same record isRecord matching

/-- A process with one registry, `N`, which has other data than the text. -/
def oneRegistry : Registries := fun name =>
  if name = [78] then some ⟨[78], [0, 0, 0, 0, 0], .save⟩ else none

/-- A text with a registry that the process does not know before the one that it does. -/
def twoRecords : List Module :=
  [⟨[109], some [⟨[85], [1, 2, 3, 4, 5], .save⟩, ⟨[78], [6, 7, 8, 9, 10], .save⟩]⟩]

theorem oneRegistry_named : Named oneRegistry := by
  intro name isThere
  by_cases isName : name = [78]
  · rw [isName]
    decide +kernel
  · exact absurd (if_neg isName) isThere

theorem twoRecords_saved : ∀ record ∈ records twoRecords [], Saved record.1 record.2 := by
  intro record within
  rcases List.mem_cons.mp within with rfl | isSecond
  · exact ⟨by decide +kernel, by decide +kernel, by decide, by decide⟩
  · rw [List.mem_singleton.mp isSecond]
    exact ⟨by decide +kernel, by decide +kernel, by decide, by decide⟩

theorem restoreRegistry_saveRegistry_two :
    ∃ after, restoreRegistry oneRegistry (saveRegistry twoRecords []).2 = some after ∧
      after [78] = some ⟨[78], [6, 7, 8, 9, 10], .save⟩ ∧ after [85] = none := by
  obtain ⟨after, ran, each⟩ := restoreRegistry_saveRegistry oneRegistry_named twoRecords_saved
  have isMatch : ∃ record ∈ records twoRecords [],
      Registry.Matches ⟨[78], [0, 0, 0, 0, 0], .save⟩ [78] record.2 := by decide
  have same : ∀ record ∈ records twoRecords [],
      Registry.Matches ⟨[78], [0, 0, 0, 0, 0], .save⟩ [78] record.2 →
        record.2.data = [6, 7, 8, 9, 10] := by decide
  exact ⟨after, ran, ((each [78]).2 _ rfl).2.2 _ (by decide) isMatch same, (each [85]).1 rfl⟩

end Wisebot.Common.SavedRegistry
