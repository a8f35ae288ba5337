import Mathlib.Data.List.TakeWhile
import Wisebot.Agent.LightSearch
import Wisebot.Lib.Looping

namespace Wisebot.Query

/-! The hand-written scanners of `mod_qp/mod_qp2.c`. A pointer into the string that
is being cut up is the text from there to the end of the string; the characters
before it are not read again. -/

open Agent Lib.Looping

universe u

def cString (text : Text) : Text := text.takeWhile (· ≠ '\x00')

def sbLeftTrim (text : Text) : Text := text.dropWhile isBlank

def sbRightTrim (text : Text) : Text := (text.reverse.dropWhile isBlank).reverse

theorem sbTrim_eq (text : Text) : sbTrim text = sbRightTrim (sbLeftTrim text) := rfl

/-- The text in front of the separator that `strchr` finds, or all of it. -/
def upTo (separator : Char) (text : Text) : Text := text.takeWhile (· ≠ separator)

def behind (separator : Char) (text : Text) : Text := (text.dropWhile (· ≠ separator)).tail

/-- `strcasecmp` -/
def equalsIgnoringCase (first second : Text) : Bool :=
  first.map Char.toLower = second.map Char.toLower

theorem length_sbLeftTrim_le (text : Text) : (sbLeftTrim text).length ≤ text.length :=
  List.length_dropWhile_le _ text

theorem length_sbTrim_le (text : Text) : (sbTrim text).length ≤ text.length := by
  rw [sbTrim_eq, sbRightTrim, List.length_reverse]
  calc ((sbLeftTrim text).reverse.dropWhile isBlank).length
      ≤ (sbLeftTrim text).reverse.length := List.length_dropWhile_le _ _
    _ = (sbLeftTrim text).length := List.length_reverse
    _ ≤ text.length := length_sbLeftTrim_le text

theorem length_behind_lt {separator : Char} {text : Text} (found : separator ∈ text) :
    (behind separator text).length < text.length := by
  induction text with
  | nil => cases found
  | cons char rest ih =>
    by_cases same : char = separator
    · simp [behind, same]
    · have later : separator ∈ rest :=
        (List.mem_cons.mp found).resolve_left fun equal => same equal.symm
      have shorter := ih later
      simp only [behind, List.length_cons] at shorter ⊢
      rw [List.dropWhile_cons_of_pos (by simpa using same)]
      omega

/-- The items of a text; behind the last separator there is one only when something
is left. -/
def items (separator : Char) (text : Text) : List Text :=
  if text = [] then []
  else if _ : separator ∈ text then
    upTo separator text :: items separator (behind separator text)
  else [text]
termination_by text.length
decreasing_by exact length_behind_lt ‹_›

theorem upTo_eq_self {separator : Char} {text : Text} (missing : separator ∉ text) :
    upTo separator text = text := by
  rw [upTo, List.takeWhile_eq_self_iff]
  exact fun char member => decide_eq_true fun same => missing (same ▸ member)

theorem not_mem_upTo (separator : Char) (text : Text) : separator ∉ upTo separator text :=
  fun member => by simpa using List.mem_takeWhile_imp member

@[simp] theorem items_nil (separator : Char) : items separator [] = [] := by
  rw [items, if_pos rfl]

theorem items_of_ne_nil {separator : Char} {text : Text} (notEmpty : text ≠ []) :
    items separator text =
      upTo separator text ::
        if separator ∈ text then items separator (behind separator text) else [] := by
  rw [items, if_neg notEmpty]
  split
  · rfl
  · rename_i missing
    rw [upTo_eq_self missing]

inductive Fault where
  | tableEnd
  | nullPointer
  deriving DecidableEq

/-- What the body of a scanner does with the item that it has cut out: it goes on to
the next one, breaks, or continues before the pointer has been moved. -/
inductive Move (σ : Type u) where
  | next (state : σ)
  | stop (state : σ)
  | stay (state : σ)
  | fault (fault : Fault)

variable {σ : Type u}

/-- One round of a scanner: the item is what is left up to the separator. -/
def scanRound (separator : Char) (body : σ → Text → Option (Move σ)) :
    σ × Text → Option (Round (σ × Text) (Except Fault σ))
  | (state, text) =>
    if text = [] then some (.leave (.ok state))
    else
      match body state (upTo separator text) with
      | none => none
      | some (.stay state) => some (.again (state, upTo separator text))
      | some (.stop state) => some (.leave (.ok state))
      | some (.fault fault) => some (.leave (.error fault))
      | some (.next state) =>
        if separator ∈ text then some (.again (state, behind separator text))
        else some (.leave (.ok state))

/-- `none` is a loop that is still going on after so many rounds. -/
def scan (separator : Char) (body : σ → Text → Option (Move σ)) (fuel : Nat) (state : σ)
    (text : Text) : Option (Except Fault σ) :=
  run (scanRound separator body) fuel (state, text)

theorem scanRound_extends {separator : Char} {body more : σ → Text → Option (Move σ)}
    (extended : ∀ state, Extends (body state) (more state)) :
    Extends (scanRound separator body) (scanRound separator more) := by
  intro place step goes
  obtain ⟨state, text⟩ := place
  simp only [scanRound] at goes ⊢
  split at goes
  · rename_i isEmpty
    rw [if_pos isEmpty]
    exact goes
  · rename_i notEmpty
    rw [if_neg notEmpty]
    cases moved : body state (upTo separator text) with
    | none =>
      rw [moved] at goes
      cases goes
    | some move =>
      rw [moved] at goes
      rw [extended state _ _ moved]
      exact goes

theorem scan_extends {separator : Char} {body more : σ → Text → Option (Move σ)}
    (extended : ∀ state, Extends (body state) (more state)) {fuel enough : Nat}
    (isMore : fuel ≤ enough) (state : σ) :
    Extends (scan separator body fuel state) (scan separator more enough state) :=
  fun text result found =>
    run_extends (scanRound_extends extended) isMore (state, text) result found

/-- A body that never stays at an item. -/
def Moves (body : σ → Text → Option (Move σ)) : Prop :=
  ∀ state item after, body state item ≠ some (.stay after)

theorem scanRound_shorter {separator : Char} {body : σ → Text → Option (Move σ)}
    (moves : Moves body) {place next : σ × Text}
    (goes : scanRound separator body place = some (.again next)) :
    next.2.length < place.2.length := by
  obtain ⟨state, text⟩ := place
  simp only [scanRound] at goes
  split at goes
  · cases goes
  · split at goes
    · cases goes
    · rename_i stays
      exact absurd stays (moves _ _ _)
    · cases goes
    · cases goes
    · split at goes
      · rename_i found
        cases goes
        exact length_behind_lt found
      · cases goes

theorem length_upTo_le (separator : Char) (text : Text) :
    (upTo separator text).length ≤ text.length :=
  (List.takeWhile_sublist _).length_le

theorem scan_isSome {separator : Char} {body : σ → Text → Option (Move σ)} (moves : Moves body)
    {fuel : Nat} (ends : ∀ state item, item.length < fuel → (body state item).isSome)
    {state : σ} {text : Text} (enough : text.length < fuel) :
    (scan separator body fuel state text).isSome := by
  apply run_isSome_of_measure (fun place : σ × Text => place.2.length) fuel _ _ enough
    (Nat.le_refl fuel)
  · intro place short
    obtain ⟨state, text⟩ := place
    have shorter : (upTo separator text).length < fuel :=
      Nat.lt_of_le_of_lt (length_upTo_le separator text) short
    obtain ⟨move, moved⟩ := Option.isSome_iff_exists.mp (ends state _ shorter)
    simp only [scanRound, moved]
    split
    · rfl
    · cases move with
      | next => simp only; split <;> rfl
      | stop => rfl
      | stay => rfl
      | fault => rfl
  · exact fun _ _ goes => scanRound_shorter moves goes

/-- `strtok`: the token, and the text behind the separator that ended it. -/
def strtok (separator : Char) (text : Text) : Option (Text × Text) :=
  let token := text.dropWhile (· = separator)
  if token = [] then none else some (upTo separator token, behind separator token)

theorem strtok_shorter {separator : Char} {text token rest : Text}
    (found : strtok separator text = some (token, rest)) : rest.length < text.length := by
  simp only [strtok] at found
  split at found
  · cases found
  · rename_i isToken
    cases found
    have dropped := List.length_dropWhile_le (· = separator) text
    by_cases again : separator ∈ text.dropWhile (· = separator)
    · have shorter := length_behind_lt again
      omega
    · have differs : ∀ char ∈ text.dropWhile (· = separator), decide (char ≠ separator) = true :=
        fun char member => decide_eq_true fun same => again (same ▸ member)
      have nothing : behind separator (text.dropWhile (· = separator)) = [] := by
        rw [behind, List.dropWhile_eq_nil_iff.mpr differs, List.tail_nil]
      have positive := List.length_pos_iff.mpr isToken
      rw [nothing]
      simp only [List.length_nil]
      omega

/-- One round of a loop over the tokens of a text. -/
def tokenRound (separator : Char) (body : σ → Text → Text → Move σ) :
    σ × Text → Round (σ × Text) (Except Fault σ)
  | (state, text) =>
    match strtok separator text with
    | none => .leave (.ok state)
    | some (token, rest) =>
      match body state token rest with
      | .next state => .again (state, rest)
      | .stay state => .again (state, text)
      | .stop state => .leave (.ok state)
      | .fault fault => .leave (.error fault)

def tokens (separator : Char) (body : σ → Text → Text → Move σ) (fuel : Nat) (state : σ)
    (text : Text) : Option (Except Fault σ) :=
  run (fun place => some (tokenRound separator body place)) fuel (state, text)

theorem tokens_extends {separator : Char} {body : σ → Text → Text → Move σ} {fuel enough : Nat}
    {state : σ} {text : Text} {result : Except Fault σ} (isMore : fuel ≤ enough)
    (found : tokens separator body fuel state text = some result) :
    tokens separator body enough state text = some result :=
  run_extends (fun _ _ same => same) isMore (state, text) result found

theorem tokenRound_shorter {separator : Char} {body : σ → Text → Text → Move σ}
    (moves : ∀ state token rest after, body state token rest ≠ .stay after)
    {place next : σ × Text} (goes : tokenRound separator body place = .again next) :
    next.2.length < place.2.length := by
  obtain ⟨state, text⟩ := place
  simp only [tokenRound] at goes
  split at goes
  · cases goes
  · rename_i found
    split at goes
    · cases goes
      exact strtok_shorter found
    · rename_i stays
      exact absurd stays (moves _ _ _ _)
    · cases goes
    · cases goes

theorem tokens_isSome {separator : Char} {body : σ → Text → Text → Move σ}
    (moves : ∀ state token rest after, body state token rest ≠ .stay after) {fuel : Nat}
    {state : σ} {text : Text} (enough : text.length < fuel) :
    (tokens separator body fuel state text).isSome :=
  run_isSome_of_measure (fun place => place.2.length) fuel (fun _ _ => rfl)
    (fun _ _ goes => tokenRound_shorter moves (Option.some.inj goes)) enough (Nat.le_refl fuel)

end Wisebot.Query
