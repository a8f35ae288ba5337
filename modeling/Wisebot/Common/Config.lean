import Mathlib.Data.List.TakeWhile
import Wisebot.Lib.Mem

namespace Wisebot.Common.Config

open Wisebot.Lib

/-! Lines of a configuration file: `lineParse` and the functions that it calls. What is left
of the buffer with the line is a list of bytes, and a `none` result is a read outside of
the buffer or a write outside of the table of arguments. -/

abbrev Text := List UInt8

def maxConfigArgNum : Nat := 32

def stringSize : Nat := 256

def isWhiteSpace (ch : UInt8) : Bool := ch = 32 || ch = 9 || ch = 13 || ch = 10 || ch = 0

def skipWhiteSpace : Text → Option Text
  | [] => none
  | ch :: line => if isWhiteSpace ch then skipWhiteSpace line else some (ch :: line)

/-- An argument without quotes: what is stored behind `pos` bytes, and what is left. -/
def bare : (pos : Nat) → Text → Option (Text × Text)
  | _, [] => none
  | pos, ch :: line =>
    if isWhiteSpace ch then some ([0], ch :: line)
    else if stringSize ≤ pos + 1 then some ([ch], line)
    else (bare (pos + 1) line).map fun more => (ch :: more.1, more.2)

/-- One of the four escapes. -/
def escape (letter byte : UInt8) (line : Text) : Text × Text :=
  if line.take 2 = [92, letter] then ([byte], line.drop 2) else ([], line)

def escapes (line : Text) : Text × Text :=
  let quote := escape 34 34 line
  let cr := escape 114 13 quote.2
  let lf := escape 110 10 cr.2
  let tab := escape 116 9 lf.2
  (quote.1 ++ cr.1 ++ lf.1 ++ tab.1, tab.2)

/-- The loop inside of quotes, which is left without a terminator where the argument gets
too long, and behind the NUL where the line ends. -/
def quoted : (rounds pos : Nat) → Text → Option (Text × Text)
  | 0, _, _ => none
  | _ + 1, _, [] => none
  | rounds + 1, pos, ch :: line =>
    if ch = 34 then some ([0], line)
    else if line = [] then none
    else
      let taken := escapes line
      let stored := ch :: taken.1
      if stringSize ≤ pos + stored.length then some (stored, taken.2)
      else if taken.2.head? = some 0 then some (stored ++ [0], taken.2.tail)
      else
        (quoted rounds (pos + stored.length) taken.2).map fun more =>
          (stored ++ more.1, more.2)

def unprefixed (pos : Nat) (line : Text) : Option (Text × Text) :=
  if line.head? = some 34 then quoted line.length pos line.tail else bare pos line

def getConfig (line : Text) : Option (Text × Text) :=
  if line.take 2 = [92, 34] then
    (unprefixed 1 (line.drop 2)).map fun more => (34 :: more.1, more.2)
  else unprefixed 0 line

def store (argument : Mem) (row : Nat) (stored : Text) : Option Mem :=
  if row * stringSize + stored.length ≤ maxConfigArgNum * stringSize then
    some (argument.write (row * stringSize) stored)
  else none

/-- The loop of `lineParse`; so many bytes of the buffer are the line, without its NUL. -/
def parseLoop (length strlen : Nat) :
    (rounds : Nat) → Text → (numConfigArg : Nat) → Mem → Option (Nat × Mem)
  | 0, _, _, _ => none
  | rounds + 1, line, numConfigArg, argument =>
    (skipWhiteSpace line).bind fun line =>
      if strlen < length - line.length then some (numConfigArg, argument)
      else if line.head? = some 35 then some (numConfigArg, argument)
      else
        (getConfig line).bind fun got =>
          (store argument numConfigArg got.1).bind fun argument =>
            if maxConfigArgNum < numConfigArg + 1 then some (numConfigArg + 1, argument)
            else parseLoop length strlen rounds got.2 (numConfigArg + 1) argument

/-- The number of arguments and the table; the buffer has a NUL behind the line. -/
def lineParse (buffer : Text) (argument : Mem) : Option (Nat × Mem) :=
  parseLoop buffer.length (buffer.takeWhile fun ch => ch ≠ 0).length buffer.length buffer 0
    argument

/-- The arguments as `conf_process` finds them. -/
def argumentList (found : Nat × Mem) : List Text :=
  (List.range found.1).map fun row =>
    found.2.cString ((maxConfigArgNum - row) * stringSize) (row * stringSize)

def escapeRank (letter : UInt8) : Nat :=
  if letter = 34 then 1 else if letter = 114 then 2 else if letter = 110 then 3
  else if letter = 116 then 4 else 0

def escaped (letter : UInt8) : UInt8 :=
  if letter = 114 then 13 else if letter = 110 then 10 else if letter = 116 then 9 else letter

/-- From inside of quotes: what they have in them behind `pos` bytes, up to the closing
one, and what is left of the line. Behind an escape only one of a higher rank is
seen. -/
def unquote : (pos rank : Nat) → Text → Option (Text × Text)
  | _, _, [] => none
  | pos, _, [ch] =>
    if stringSize ≤ pos then some ([], [ch]) else if ch = 34 then some ([0], []) else none
  | pos, rank, ch :: letter :: line =>
    if ch = 92 ∧ rank < escapeRank letter then
      (unquote (pos + 1) (escapeRank letter) line).map fun more =>
        (escaped letter :: more.1, more.2)
    else if stringSize ≤ pos then some ([], ch :: letter :: line)
    else if ch = 34 then some ([0], letter :: line)
    else
      (unquote (pos + 1) 0 (letter :: line)).map fun more => (ch :: more.1, more.2)

/-- A word goes on to the next white space or to the end of its row. -/
def word (pos : Nat) (line : Text) : Text × Text :=
  let run := line.takeWhile fun ch => !isWhiteSpace ch
  if pos + run.length < stringSize then (run ++ [0], line.drop run.length)
  else (run.take (stringSize - pos), line.drop (stringSize - pos))

def wordOrQuoted (pos : Nat) (line : Text) : Option (Text × Text) :=
  if line.head? = some 34 then unquote pos 4 line.tail else some (word pos line)

/-- The argument that a line begins with; none where its quotes are not closed. -/
def argumentOf (line : Text) : Option (Text × Text) :=
  if line.take 2 = [92, 34] then
    (wordOrQuoted 1 (line.drop 2)).map fun more => (34 :: more.1, more.2)
  else wordOrQuoted 0 line

/-- Behind so many arguments the line comes to a comment, with all its arguments inside of
the table. -/
inductive Stops : (row : Nat) → Text → Prop
  | comment {row : Nat} {line : Text} : Stops row (35 :: line)
  | blank {row : Nat} {ch : UInt8} {line : Text} (isBlank : isWhiteSpace ch = true)
      (rest : Stops row line) : Stops row (ch :: line)
  | argument {row : Nat} {ch : UInt8} {line stored left : Text}
      (notBlank : isWhiteSpace ch = false) (notComment : ch ≠ 35)
      (isArgument : argumentOf (ch :: line) = some (stored, left))
      (fits : row * stringSize + stored.length ≤ maxConfigArgNum * stringSize)
      (isRow : row < maxConfigArgNum) (rest : Stops (row + 1) left) : Stops row (ch :: line)

section Arguments

variable {pos rank : Nat} {line : Text}

theorem take_two_append (letter : UInt8) (isLetter : letter ≠ 0) :
    (line ++ [0]).take 2 = [92, letter] ↔ line.take 2 = [92, letter] := by
  rcases line with _ | ⟨first, _ | ⟨second, line⟩⟩
  · exact iff_of_false (fun never => by cases never) (fun never => by cases never)
  · refine iff_of_false (fun never => ?_) (fun never => by cases never)
    cases never
    exact isLetter rfl
  · exact Iff.rfl

theorem escape_append {letter byte : UInt8} (isLetter : letter ≠ 0) (line : Text) :
    escape letter byte (line ++ [0]) =
      ((escape letter byte line).1, (escape letter byte line).2 ++ [0]) := by
  rw [escape, escape]
  by_cases isEscape : line.take 2 = [92, letter]
  · have long : 2 ≤ line.length := by
      have lengths := congrArg List.length isEscape
      rw [List.length_take, List.length_cons, List.length_singleton] at lengths
      omega
    rw [if_pos ((take_two_append letter isLetter).mpr isEscape), if_pos isEscape,
      List.drop_append_of_le_length long]
  · rw [if_neg fun same => isEscape ((take_two_append letter isLetter).mp same), if_neg isEscape]

theorem escapes_append (line : Text) :
    escapes (line ++ [0]) = ((escapes line).1, (escapes line).2 ++ [0]) := by
  rw [escapes, escapes]
  simp only [escape_append (by decide : (34 : UInt8) ≠ 0),
    escape_append (by decide : (114 : UInt8) ≠ 0), escape_append (by decide : (110 : UInt8) ≠ 0),
    escape_append (by decide : (116 : UInt8) ≠ 0)]

/-- The rest of the quotes with something in front of what they have. -/
def behind (front : Text) (found : Option (Text × Text)) : Option (Text × Text) :=
  found.map fun more => (front ++ more.1, more.2)

theorem behind_behind (first second : Text) (found : Option (Text × Text)) :
    behind first (behind second found) = behind (first ++ second) found := by
  cases found with
  | none => rfl
  | some found => exact congrArg some (Prod.ext (List.append_assoc ..).symm rfl)

theorem behind_nil (found : Option (Text × Text)) : behind [] found = found := by
  cases found with
  | none => rfl
  | some found => rfl

theorem unquote_escape {letter byte : UInt8} (isRank : escapeRank letter = rank + 1)
    (isByte : escaped letter = byte)
    (unique : ∀ other, escapeRank other = rank + 1 → other = letter) :
    unquote pos rank line =
      behind (escape letter byte line).1
        (unquote (pos + (escape letter byte line).1.length) (rank + 1)
          (escape letter byte line).2) := by
  rw [escape]
  by_cases isEscape : line.take 2 = [92, letter]
  · rcases line with _ | ⟨first, _ | ⟨second, line⟩⟩
    · cases isEscape
    · cases isEscape
    · cases isEscape
      have ranked : rank < escapeRank letter := by omega
      have isTake : (92 :: letter :: line).take 2 = [92, letter] := rfl
      rw [if_pos isTake, unquote, if_pos ⟨rfl, ranked⟩, isByte, isRank]
      rfl
  · rw [if_neg isEscape, behind_nil]
    show unquote pos rank line = unquote pos (rank + 1) line
    rcases line with _ | ⟨first, _ | ⟨second, line⟩⟩
    · rfl
    · rfl
    · have sameTest : (first = 92 ∧ rank < escapeRank second) ↔
          (first = 92 ∧ rank + 1 < escapeRank second) := by
        constructor
        · rintro ⟨rfl, ranked⟩
          refine ⟨rfl, lt_of_le_of_ne ranked fun same => ?_⟩
          rw [unique second same.symm] at isEscape
          exact isEscape rfl
        · rintro ⟨isBackslash, ranked⟩
          exact ⟨isBackslash, by omega⟩
      rw [unquote, unquote]
      simp only [sameTest]

theorem escapeRank_inj {first second : UInt8} (isEscape : 0 < escapeRank first)
    (same : escapeRank second = escapeRank first) : second = first := by
  rw [escapeRank, escapeRank] at same
  rw [escapeRank] at isEscape
  grind

theorem unquote_escapes (pos : Nat) (line : Text) :
    unquote pos 0 line =
      behind (escapes line).1 (unquote (pos + (escapes line).1.length) 4 (escapes line).2) := by
  have unique : ∀ letter : UInt8, 0 < escapeRank letter → ∀ other,
      escapeRank other = escapeRank letter → other = letter :=
    fun letter isEscape other same => escapeRank_inj isEscape same
  rw [unquote_escape (rfl : escapeRank 34 = 0 + 1) (rfl : _ = (34 : UInt8)) (unique 34 (by decide)),
    unquote_escape (rfl : escapeRank 114 = 1 + 1) (rfl : _ = (13 : UInt8)) (unique 114 (by decide)),
    unquote_escape (rfl : escapeRank 110 = 2 + 1) (rfl : _ = (10 : UInt8)) (unique 110 (by decide)),
    unquote_escape (rfl : escapeRank 116 = 3 + 1) (rfl : _ = (9 : UInt8)) (unique 116 (by decide)),
    behind_behind, behind_behind, behind_behind, escapes]
  simp only [List.length_append, List.append_assoc, Nat.add_assoc]

theorem length_escape_le (letter byte : UInt8) (line : Text) :
    (escape letter byte line).2.length ≤ line.length := by
  rw [escape]
  split
  · rw [List.length_drop]
    exact Nat.sub_le _ _
  · exact le_refl _

theorem length_escapes_le (line : Text) : (escapes line).2.length ≤ line.length :=
  (length_escape_le _ _ _).trans ((length_escape_le _ _ _).trans
    ((length_escape_le _ _ _).trans (length_escape_le _ _ _)))

/-- What the code finds where the line, without its NUL, has such an argument: the same
argument, or at the most a rest without anything in it. -/
def Agrees (found called : Option (Text × Text)) : Prop :=
  match found with
  | some (stored, left) => called = some (stored, left ++ [0])
  | none => ∀ stored left, called = some (stored, left) → left = [] ∨ left = [0]

theorem Agrees.behind {found called : Option (Text × Text)} (agrees : Agrees found called)
    (front : Text) : Agrees (behind front found) (behind front called) := by
  cases found with
  | none =>
    intro stored left isCalled
    obtain ⟨more, isMore, isBoth⟩ := Option.map_eq_some_iff.mp isCalled
    cases isBoth
    exact agrees more.1 more.2 isMore
  | some found => exact congrArg (Option.map _) (agrees : called = some (found.1, found.2 ++ [0]))

theorem mem_escape {letter byte : UInt8} {line : Text} {ch : UInt8}
    (within : ch ∈ (escape letter byte line).2) : ch ∈ line := by
  rw [escape] at within
  split at within
  · exact List.mem_of_mem_drop within
  · exact within

theorem mem_escapes {line : Text} {ch : UInt8} (within : ch ∈ (escapes line).2) : ch ∈ line :=
  mem_escape (mem_escape (mem_escape (mem_escape within)))

theorem escapeRank_le (letter : UInt8) : escapeRank letter ≤ 4 := by
  rw [escapeRank]
  grind

theorem unquote_raw {ch : UInt8} (notEscape : ch = 92 → ∀ letter, line.head? = some letter →
    escapeRank letter ≤ rank) (room : pos < stringSize) :
    unquote pos rank (ch :: line) =
      if ch = 34 then some ([0], line) else behind [ch] (unquote (pos + 1) 0 line) := by
  have short : ¬ stringSize ≤ pos := by omega
  cases line with
  | nil =>
    show (if stringSize ≤ pos then _ else _) = _
    rw [if_neg short]
    rfl
  | cons letter line =>
    have noEscape : ¬ (ch = 92 ∧ rank < escapeRank letter) := by
      rintro ⟨isBackslash, ranked⟩
      have atMost := notEscape isBackslash letter rfl
      omega
    rw [unquote, if_neg noEscape, if_neg short]
    rfl

theorem unquote_full (full : stringSize ≤ pos) (notEmpty : line ≠ []) :
    unquote pos 4 line = some ([], line) := by
  rcases line with _ | ⟨ch, _ | ⟨letter, line⟩⟩
  · exact absurd rfl notEmpty
  · rw [unquote, if_pos full]
  · have noEscape : ¬ (ch = 92 ∧ 4 < escapeRank letter) := by
      have atMost := escapeRank_le letter
      omega
    rw [unquote, if_neg noEscape, if_pos full]

theorem quoted_agrees {rounds : Nat} (enough : line.length < rounds) (string : 0 ∉ line)
    (room : pos < stringSize) :
    Agrees (unquote pos 4 line) (quoted rounds pos (line ++ [0])) := by
  induction rounds generalizing pos line with
  | zero => omega
  | succ rounds ih =>
    cases line with
    | nil =>
      intro stored left never
      cases never
    | cons ch line =>
      rw [unquote_raw (fun _ letter _ => escapeRank_le letter) room, List.cons_append, quoted]
      by_cases isQuote : ch = 34
      · rw [if_pos isQuote, if_pos isQuote]
        rfl
      · have notEmpty : line ++ [0] ≠ [] :=
          List.append_ne_nil_of_right_ne_nil _ (List.cons_ne_nil _ _)
        rw [if_neg isQuote, if_neg isQuote, if_neg notEmpty, unquote_escapes, behind_behind,
          escapes_append]
        have short := length_escapes_le line
        have isString : 0 ∉ (escapes line).2 := fun within =>
          string (List.mem_cons_of_mem _ (mem_escapes within))
        have isPos :
            pos + (ch :: (escapes line).1).length = pos + 1 + (escapes line).1.length := by
          rw [List.length_cons]
          omega
        rw [← isPos]
        show Agrees (behind (ch :: (escapes line).1) _)
          (if stringSize ≤ pos + (ch :: (escapes line).1).length then _ else _)
        by_cases full : stringSize ≤ pos + (ch :: (escapes line).1).length
        · rw [if_pos full]
          cases isRest : (escapes line).2 with
          | nil =>
            intro stored left isCalled
            cases isCalled
            exact .inr rfl
          | cons next rest =>
            rw [unquote_full full (List.cons_ne_nil _ _)]
            show _ = _
            rw [List.append_nil]
        · rw [if_neg full]
          cases isRest : (escapes line).2 with
          | nil =>
            intro stored left isCalled
            cases isCalled
            exact .inl rfl
          | cons next rest =>
            have notNull : (next :: rest ++ [0]).head? ≠ some 0 := by
              intro isNull
              cases isNull
              rw [isRest] at isString
              exact isString List.mem_cons_self
            rw [if_neg notNull, ← isRest]
            have fewer : (escapes line).2.length < rounds := by
              rw [List.length_cons] at enough
              omega
            have isRoom : pos + (ch :: (escapes line).1).length < stringSize := by omega
            exact (ih fewer isString isRoom).behind (ch :: (escapes line).1)

theorem bare_agrees (room : pos < stringSize) (string : 0 ∉ line) :
    bare pos (line ++ [0]) = some ((word pos line).1, (word pos line).2 ++ [0]) := by
  induction line generalizing pos with
  | nil =>
    have fits : pos + 0 < stringSize := room
    rw [word, List.takeWhile_nil, List.length_nil, if_pos fits]
    rfl
  | cons ch line ih =>
    have isString : 0 ∉ line := fun within => string (List.mem_cons_of_mem _ within)
    rw [List.cons_append, bare, word]
    cases isBlank : isWhiteSpace ch with
    | true =>
      have noRun : (ch :: line).takeWhile (fun ch => !isWhiteSpace ch) = [] := by
        rw [List.takeWhile_cons, isBlank]
        rfl
      have fits : pos + 0 < stringSize := room
      rw [if_pos rfl, noRun, List.length_nil, if_pos fits]
      rfl
    | false =>
      have isRun : (ch :: line).takeWhile (fun ch => !isWhiteSpace ch) =
          ch :: line.takeWhile fun ch => !isWhiteSpace ch := by
        rw [List.takeWhile_cons, isBlank]
        rfl
      rw [if_neg Bool.false_ne_true, isRun, List.length_cons]
      by_cases full : stringSize ≤ pos + 1
      · have isOne : stringSize - pos = 1 := by omega
        rw [if_pos full, if_neg (by omega), isOne]
        rfl
      · rw [if_neg full, ih (by omega) isString, word]
        by_cases fits : pos + 1 + (line.takeWhile fun ch => !isWhiteSpace ch).length < stringSize
        · rw [if_pos fits, if_pos (by omega)]
          rfl
        · have isMore : stringSize - pos = stringSize - (pos + 1) + 1 := by omega
          rw [if_neg fits, if_neg (by omega), isMore]
          rfl

theorem unprefixed_agrees (room : pos < stringSize) (string : 0 ∉ line) :
    Agrees (wordOrQuoted pos line) (unprefixed pos (line ++ [0])) := by
  have sameHead : (line ++ [0]).head? = some 34 ↔ line.head? = some 34 := by
    cases line with
    | nil => exact iff_of_false (fun never => by cases never) (fun never => by cases never)
    | cons ch line => exact Iff.rfl
  rw [wordOrQuoted, unprefixed]
  by_cases isQuote : line.head? = some 34
  · rw [if_pos isQuote, if_pos (sameHead.mpr isQuote)]
    obtain ⟨rest, rfl⟩ := List.head?_eq_some_iff.mp isQuote
    refine quoted_agrees ?_ (fun within => string (List.mem_cons_of_mem _ within)) room
    rw [List.length_append, List.length_cons]
    exact Nat.lt_add_right _ (Nat.lt_succ_self _)
  · rw [if_neg isQuote, if_neg fun same => isQuote (sameHead.mp same)]
    exact bare_agrees room string

theorem getConfig_agrees (string : 0 ∉ line) :
    Agrees (argumentOf line) (getConfig (line ++ [0])) := by
  rw [argumentOf, getConfig]
  by_cases isPrefixed : line.take 2 = [92, 34]
  · have long : 2 ≤ line.length := by
      have lengths := congrArg List.length isPrefixed
      rw [List.length_take, List.length_cons, List.length_singleton] at lengths
      omega
    rw [if_pos isPrefixed, if_pos ((take_two_append 34 (by decide)).mpr isPrefixed),
      List.drop_append_of_le_length long]
    exact (unprefixed_agrees (by decide : 1 < stringSize)
      fun within => string (List.mem_of_mem_drop within)).behind [34]
  · rw [if_neg isPrefixed,
      if_neg fun same => isPrefixed ((take_two_append 34 (by decide)).mp same)]
    exact unprefixed_agrees (by decide) string

theorem unquote_suffix {stored left : Text} (found : unquote pos rank line = some (stored, left)) :
    left <:+ line := by
  fun_induction unquote pos rank line generalizing stored left with
  | case1 => cases found
  | case2 pos rank ch full =>
    cases found
    exact List.suffix_rfl
  | case3 =>
    cases found
    exact List.nil_suffix
  | case4 => cases found
  | case5 pos rank ch letter line isEscape ih =>
    obtain ⟨more, isMore, isBoth⟩ := Option.map_eq_some_iff.mp found
    cases isBoth
    exact (ih isMore).trans ((List.suffix_cons _ _).trans (List.suffix_cons _ _))
  | case6 =>
    cases found
    exact List.suffix_rfl
  | case7 =>
    cases found
    exact List.suffix_cons _ _
  | case8 pos rank ch letter line notEscape notFull notQuote ih =>
    obtain ⟨more, isMore, isBoth⟩ := Option.map_eq_some_iff.mp found
    cases isBoth
    exact (ih isMore).trans (List.suffix_cons _ _)

theorem word_suffix (pos : Nat) (line : Text) : (word pos line).2 <:+ line := by
  rw [word]
  split
  · exact List.drop_suffix _ _
  · exact List.drop_suffix _ _

theorem wordOrQuoted_suffix {stored left : Text}
    (found : wordOrQuoted pos line = some (stored, left)) : left <:+ line := by
  rw [wordOrQuoted] at found
  split at found
  · exact (unquote_suffix found).trans (List.tail_suffix _)
  · have isLeft : (word pos line).2 = left := congrArg Prod.snd (Option.some.inj found)
    rw [← isLeft]
    exact word_suffix pos line

theorem argumentOf_suffix {ch : UInt8} {stored left : Text} (notBlank : isWhiteSpace ch = false)
    (found : argumentOf (ch :: line) = some (stored, left)) : left <:+ line := by
  rw [argumentOf] at found
  split at found
  case isTrue isPrefixed =>
    obtain ⟨more, isMore, isBoth⟩ := Option.map_eq_some_iff.mp found
    cases isBoth
    refine (wordOrQuoted_suffix isMore).trans ?_
    cases line with
    | nil => cases isPrefixed
    | cons second line => exact List.suffix_cons _ _
  case isFalse =>
    rw [wordOrQuoted] at found
    split at found
    · exact unquote_suffix found
    · have isLeft : (word 0 (ch :: line)).2 = left := congrArg Prod.snd (Option.some.inj found)
      have isRun : (ch :: line).takeWhile (fun ch => !isWhiteSpace ch) =
          ch :: line.takeWhile fun ch => !isWhiteSpace ch := by
        rw [List.takeWhile_cons, notBlank]
        rfl
      rw [← isLeft, word, isRun, List.length_cons]
      split
      · exact List.drop_suffix (line.takeWhile fun ch => !isWhiteSpace ch).length line
      · exact List.drop_suffix 255 line

theorem bare_ne_nil {stored left : Text} (found : bare pos line = some (stored, left)) :
    stored ≠ [] := by
  cases line with
  | nil => cases found
  | cons ch line =>
    rw [bare] at found
    split at found
    · cases found
      exact List.cons_ne_nil _ _
    · split at found
      · cases found
        exact List.cons_ne_nil _ _
      · obtain ⟨more, _, isBoth⟩ := Option.map_eq_some_iff.mp found
        cases isBoth
        exact List.cons_ne_nil _ _

theorem quoted_ne_nil {rounds : Nat} {stored left : Text}
    (found : quoted rounds pos line = some (stored, left)) : stored ≠ [] := by
  rcases rounds with _ | rounds
  · cases found
  · cases line with
    | nil => cases found
    | cons ch line =>
      rw [quoted] at found
      split at found
      · cases found
        exact List.cons_ne_nil _ _
      · split at found
        · cases found
        · simp only at found
          split at found
          · cases found
            exact List.cons_ne_nil _ _
          · split at found
            · cases found
              exact List.cons_ne_nil _ _
            · obtain ⟨more, _, isBoth⟩ := Option.map_eq_some_iff.mp found
              cases isBoth
              exact List.cons_ne_nil _ _

theorem getConfig_ne_nil {stored left : Text} (found : getConfig line = some (stored, left)) :
    stored ≠ [] := by
  have plain : ∀ {pos line stored left}, unprefixed pos line = some (stored, left) →
      stored ≠ [] := by
    intro pos line stored left isFound
    rw [unprefixed] at isFound
    split at isFound
    · exact quoted_ne_nil isFound
    · exact bare_ne_nil isFound
  rw [getConfig] at found
  split at found
  · obtain ⟨more, _, isBoth⟩ := Option.map_eq_some_iff.mp found
    cases isBoth
    exact List.cons_ne_nil _ _
  · exact plain found

end Arguments

section Lines

variable {row : Nat} {line : Text}

theorem skipWhiteSpace_append (line : Text) :
    skipWhiteSpace (line ++ [0]) =
      if line.dropWhile isWhiteSpace = [] then none
      else some (line.dropWhile isWhiteSpace ++ [0]) := by
  induction line with
  | nil => rfl
  | cons ch line ih =>
    rw [List.cons_append, skipWhiteSpace, List.dropWhile_cons]
    split
    · exact ih
    · rfl

theorem stops_cons_blank {ch : UInt8} (isBlank : isWhiteSpace ch = true) :
    Stops row (ch :: line) ↔ Stops row line := by
  constructor
  · intro stops
    cases stops with
    | comment => cases isBlank
    | blank _ rest => exact rest
    | argument notBlank =>
      rw [isBlank] at notBlank
      cases notBlank
  · exact Stops.blank isBlank

theorem stops_dropWhile : Stops row line ↔ Stops row (line.dropWhile isWhiteSpace) := by
  induction line with
  | nil => exact Iff.rfl
  | cons ch line ih =>
    rw [List.dropWhile_cons]
    split
    case isTrue isBlank => exact (stops_cons_blank isBlank).trans ih
    case isFalse => exact Iff.rfl

theorem stops_argument_iff {ch : UInt8} (notBlank : isWhiteSpace ch = false)
    (notComment : ch ≠ 35) :
    Stops row (ch :: line) ↔ ∃ stored left, argumentOf (ch :: line) = some (stored, left) ∧
      row * stringSize + stored.length ≤ maxConfigArgNum * stringSize ∧
      row < maxConfigArgNum ∧ Stops (row + 1) left := by
  constructor
  · intro stops
    cases stops with
    | comment => exact absurd rfl notComment
    | blank isBlank =>
      rw [notBlank] at isBlank
      cases isBlank
    | argument _ _ isArgument fits isRow rest => exact ⟨_, _, isArgument, fits, isRow, rest⟩
  · rintro ⟨stored, left, isArgument, fits, isRow, rest⟩
    exact .argument notBlank notComment isArgument fits isRow rest

theorem parseLoop_argument {strlen rounds : Nat} {ch : UInt8} {rest : Text}
    (isNext : line.dropWhile isWhiteSpace = ch :: rest) (notComment : ch ≠ 35)
    (inLine : line.length ≤ strlen) (argument : Mem) :
    parseLoop (strlen + 1) strlen (rounds + 1) (line ++ [0]) row argument =
      (getConfig (ch :: rest ++ [0])).bind fun got =>
        (store argument row got.1).bind fun argument =>
          if maxConfigArgNum < row + 1 then some (row + 1, argument)
          else parseLoop (strlen + 1) strlen rounds got.2 (row + 1) argument := by
  have inside : ¬ strlen < strlen + 1 - (ch :: rest ++ [0]).length := by
    rw [List.length_append, List.length_cons, List.length_singleton]
    omega
  have isCh : (ch :: rest ++ [0]).head? ≠ some 35 := by
    intro same
    cases same
    exact notComment rfl
  rw [parseLoop, skipWhiteSpace_append, isNext, if_neg (List.cons_ne_nil _ _), Option.bind_some,
    if_neg inside, if_neg isCh]

theorem parseLoop_comment {strlen rounds : Nat} {rest : Text}
    (isNext : line.dropWhile isWhiteSpace = 35 :: rest) (inLine : line.length ≤ strlen)
    (argument : Mem) :
    parseLoop (strlen + 1) strlen (rounds + 1) (line ++ [0]) row argument =
      some (row, argument) := by
  have inside : ¬ strlen < strlen + 1 - (35 :: rest ++ [0]).length := by
    rw [List.length_append, List.length_cons, List.length_singleton]
    omega
  rw [parseLoop, skipWhiteSpace_append, isNext, if_neg (List.cons_ne_nil _ _), Option.bind_some,
    if_neg inside]
  rfl

theorem parseLoop_end {strlen rounds length : Nat}
    (isEnd : line.dropWhile isWhiteSpace = []) (argument : Mem) :
    parseLoop length strlen rounds (line ++ [0]) row argument = none := by
  cases rounds with
  | zero => rfl
  | succ rounds =>
    rw [parseLoop, skipWhiteSpace_append, if_pos isEnd]
    rfl

theorem parseLoop_nil {strlen rounds length : Nat} (argument : Mem) :
    parseLoop length strlen rounds [] row argument = none := by
  cases rounds with
  | zero => rfl
  | succ rounds => rfl

theorem store_isSome_iff {argument : Mem} {stored : Text} :
    (store argument row stored).isSome = true ↔
      row * stringSize + stored.length ≤ maxConfigArgNum * stringSize := by
  rw [store]
  split
  · exact iff_of_true rfl ‹_›
  · exact iff_of_false Bool.false_ne_true ‹_›

theorem row_lt_of_store {argument after : Mem} {stored : Text} (notEmpty : stored ≠ [])
    (isStored : store argument row stored = some after) : row < maxConfigArgNum := by
  have isThere : (store argument row stored).isSome = true := by
    rw [isStored]
    rfl
  have fits : row * 256 + stored.length ≤ 32 * 256 := store_isSome_iff.mp isThere
  have positive := List.length_pos_iff.mpr notEmpty
  show row < 32
  omega

theorem parseLoop_unclosed {strlen rounds : Nat} {ch : UInt8} {rest : Text}
    (isNext : line.dropWhile isWhiteSpace = ch :: rest) (notComment : ch ≠ 35)
    (unclosed : argumentOf (ch :: rest) = none) (string : 0 ∉ ch :: rest)
    (inLine : line.length ≤ strlen) (argument : Mem) :
    parseLoop (strlen + 1) strlen (rounds + 1) (line ++ [0]) row argument = none := by
  have agrees := getConfig_agrees string
  rw [unclosed] at agrees
  rw [parseLoop_argument isNext notComment inLine]
  refine Option.eq_none_iff_forall_ne_some.mpr fun found ran => ?_
  obtain ⟨⟨stored, left⟩, called, goesOn⟩ := Option.bind_eq_some_iff.mp ran
  obtain ⟨after, isStored, goesOn⟩ := Option.bind_eq_some_iff.mp goesOn
  have isRow := row_lt_of_store (getConfig_ne_nil called) isStored
  rw [if_neg (by omega)] at goesOn
  rcases agrees stored left called with rfl | rfl
  · rw [parseLoop_nil] at goesOn
    cases goesOn
  · rw [← List.nil_append [0], parseLoop_end rfl] at goesOn
    cases goesOn

theorem isSome_parseLoop_iff {strlen rounds : Nat} (enough : line.length < rounds)
    (string : 0 ∉ line) (inLine : line.length ≤ strlen) (isRow : row ≤ maxConfigArgNum)
    (argument : Mem) :
    (parseLoop (strlen + 1) strlen rounds (line ++ [0]) row argument).isSome = true ↔
      Stops row line := by
  induction rounds generalizing line row argument with
  | zero => omega
  | succ rounds ih =>
    rw [stops_dropWhile]
    have isSuffix := List.dropWhile_suffix isWhiteSpace (l := line)
    have shorter := isSuffix.length_le
    cases isNext : line.dropWhile isWhiteSpace with
    | nil =>
      rw [parseLoop_end isNext]
      refine iff_of_false Bool.false_ne_true fun never => ?_
      cases never
    | cons ch rest =>
      by_cases isComment : ch = 35
      · subst isComment
        rw [parseLoop_comment isNext inLine]
        exact iff_of_true rfl .comment
      · have notBlank : isWhiteSpace ch = false := by
          have notTrue := List.head_dropWhile_not isWhiteSpace (l := line)
            (by rw [isNext]; exact List.cons_ne_nil _ _)
          simpa only [isNext, List.head_cons] using notTrue
        rw [isNext] at isSuffix shorter
        have isString : 0 ∉ ch :: rest := fun within => string (isSuffix.subset within)
        have agrees := getConfig_agrees isString
        rw [parseLoop_argument isNext isComment inLine, stops_argument_iff notBlank isComment]
        cases isArgument : argumentOf (ch :: rest) with
        | none =>
          rw [← parseLoop_argument isNext isComment inLine,
            parseLoop_unclosed isNext isComment isArgument isString inLine]
          refine iff_of_false Bool.false_ne_true fun never => ?_
          obtain ⟨_, _, never, _⟩ := never
          cases never
        | some found =>
          obtain ⟨stored, left⟩ := found
          rw [isArgument] at agrees
          have called : getConfig (ch :: rest ++ [0]) = some (stored, left ++ [0]) := agrees
          have isRest := argumentOf_suffix notBlank isArgument
          have fewer := isRest.length_le
          rw [called, Option.bind_some]
          cases isStored : store argument row stored with
          | none =>
            refine iff_of_false Bool.false_ne_true fun never => ?_
            obtain ⟨_, _, same, fits, _⟩ := never
            cases same
            have isThere := (@store_isSome_iff _ argument _).mpr fits
            rw [isStored] at isThere
            cases isThere
          | some after =>
            have isRow := row_lt_of_store (getConfig_ne_nil called) isStored
            have fits : row * stringSize + stored.length ≤ maxConfigArgNum * stringSize :=
              store_isSome_iff.mp (by rw [isStored]; rfl)
            rw [Option.bind_some, if_neg (by omega)]
            rw [List.length_cons] at shorter
            have isLeft : 0 ∉ left :=
              fun within => isString (List.mem_cons_of_mem _ (isRest.subset within))
            rw [ih (by omega) isLeft (by omega) isRow after]
            constructor
            · exact fun stops => ⟨stored, left, rfl, fits, isRow, stops⟩
            · rintro ⟨_, _, same, _, _, stops⟩
              cases same
              exact stops

theorem length_takeWhile_string (string : 0 ∉ line) :
    ((line ++ [0]).takeWhile fun ch => ch ≠ 0).length = line.length := by
  have isLine : (line ++ [0]).takeWhile (fun ch => ch ≠ 0) = line := by
    have all : ∀ ch ∈ line, decide (ch ≠ 0) = true := by
      intro ch within
      refine decide_eq_true ?_
      rintro rfl
      exact string within
    rw [List.takeWhile_append_of_pos all]
    exact List.append_nil _
  rw [isLine]

/-- A line is lexed in its buffer and its table exactly when it comes to a comment. -/
theorem isSome_lineParse_iff (string : 0 ∉ line) (argument : Mem) :
    (lineParse (line ++ [0]) argument).isSome = true ↔ Stops 0 line := by
  rw [lineParse, length_takeWhile_string string, List.length_append]
  exact isSome_parseLoop_iff (Nat.lt_succ_self _) string (le_refl _) (Nat.zero_le _) argument

theorem count_parseLoop {strlen rounds length : Nat} {argument : Mem} {found : Nat × Mem}
    (isRow : row ≤ maxConfigArgNum)
    (ran : parseLoop length strlen rounds line row argument = some found) :
    found.1 ≤ maxConfigArgNum := by
  induction rounds generalizing line row argument with
  | zero => cases ran
  | succ rounds ih =>
    obtain ⟨rest, _, ran⟩ := Option.bind_eq_some_iff.mp ran
    split at ran
    · cases ran
      exact isRow
    · split at ran
      · cases ran
        exact isRow
      · obtain ⟨⟨stored, left⟩, called, ran⟩ := Option.bind_eq_some_iff.mp ran
        obtain ⟨after, isStored, ran⟩ := Option.bind_eq_some_iff.mp ran
        have less := row_lt_of_store (getConfig_ne_nil called) isStored
        rw [if_neg (by omega)] at ran
        exact ih less ran

theorem parseLoop_keeps {strlen rounds length : Nat} {argument : Mem} {found : Nat × Mem}
    (ran : parseLoop length strlen rounds line row argument = some found) {address : Nat}
    (below : address < row * stringSize) : found.2 address = argument address := by
  induction rounds generalizing line row argument with
  | zero => cases ran
  | succ rounds ih =>
    obtain ⟨rest, _, ran⟩ := Option.bind_eq_some_iff.mp ran
    split at ran
    · cases ran
      rfl
    · split at ran
      · cases ran
        rfl
      · obtain ⟨⟨stored, left⟩, called, ran⟩ := Option.bind_eq_some_iff.mp ran
        obtain ⟨after, isStored, ran⟩ := Option.bind_eq_some_iff.mp ran
        have less := row_lt_of_store (getConfig_ne_nil called) isStored
        rw [if_neg (by omega)] at ran
        have isAfter : after = argument.write (row * stringSize) stored := by
          rw [store] at isStored
          split at isStored
          · exact (Option.some.inj isStored).symm
          · cases isStored
        have isBelow : address < (row + 1) * stringSize :=
          below.trans_le (Nat.mul_le_mul_right _ (Nat.le_succ _))
        rw [ih ran isBelow, isAfter, Mem.write_apply_outside (.inl below)]

end Lines

/-- The place among the tests of the escape that a character is written as. -/
def specialRank (ch : UInt8) : Nat :=
  if ch = 34 then 1 else if ch = 13 then 2 else if ch = 10 then 3 else if ch = 9 then 4 else 0

def letterOf (ch : UInt8) : UInt8 :=
  if ch = 13 then 114 else if ch = 10 then 110 else if ch = 9 then 116 else ch

def encode (text : Text) : Text :=
  text.flatMap fun ch => if specialRank ch = 0 then [ch] else [92, letterOf ch]

inductive Argument
  | bare (text : Text)
  | quoted (text : Text)

namespace Argument

def text : Argument → Text
  | bare text => text
  | quoted text => text

def written : Argument → Text
  | bare text => text
  | quoted text => 34 :: (encode text ++ [34])

def IsQuoted : Argument → Prop
  | bare _ => False
  | quoted _ => True

def Valid : Argument → Prop
  | bare text => text ≠ [] ∧ (∀ ch ∈ text, isWhiteSpace ch = false ∧ ch ≠ 92) ∧
      text.head? ≠ some 34 ∧ text.head? ≠ some 35
  | quoted text => ∀ ch ∈ text, ch ≠ 0 ∧ ch ≠ 92

end Argument

/-- Each character that is written as an escape stands behind one of a lower rank, and
none at the begin. -/
def Ranked : (rank : Nat) → Text → Prop
  | _, [] => True
  | rank, ch :: text =>
    if specialRank ch = 0 then Ranked 0 text
    else rank < specialRank ch ∧ Ranked (specialRank ch) text

def Argument.Clear : Argument → Prop
  | bare _ => True
  | quoted text => Ranked 4 text

abbrev Items := List (Argument × Text)

def Items.written (items : Items) : Text := items.flatMap fun item => item.1.written ++ item.2

def commentText (comment : Option Text) : Text :=
  match comment with
  | none => []
  | some text => 35 :: text

/-- White space is only left out behind quotes and at the end. -/
def Separated (comment : Option Text) : Items → Prop
  | [] => True
  | item :: items =>
    (∀ ch ∈ item.2, isWhiteSpace ch = true ∧ ch ≠ 0) ∧
      (item.2 ≠ [] ∨ item.1.IsQuoted ∨ items = [] ∧ comment = none) ∧ Separated comment items

section Written

variable {pos rank : Nat}

theorem escapeRank_letterOf {ch : UInt8} (isSpecial : specialRank ch ≠ 0) :
    escapeRank (letterOf ch) = specialRank ch ∧ escaped (letterOf ch) = ch := by
  have isOne : ch = 34 ∨ ch = 13 ∨ ch = 10 ∨ ch = 9 := by
    rw [specialRank] at isSpecial
    grind
  rcases isOne with rfl | rfl | rfl | rfl
  · exact ⟨rfl, rfl⟩
  · exact ⟨rfl, rfl⟩
  · exact ⟨rfl, rfl⟩
  · exact ⟨rfl, rfl⟩

theorem encode_cons (ch : UInt8) (text : Text) :
    encode (ch :: text) =
      (if specialRank ch = 0 then [ch] else [92, letterOf ch]) ++ encode text := rfl

theorem length_le_encode (text : Text) : text.length ≤ (encode text).length := by
  induction text with
  | nil => exact le_refl _
  | cons ch text ih =>
    rw [encode_cons, List.length_append, List.length_cons]
    split
    · rw [List.length_singleton]
      omega
    · rw [List.length_cons, List.length_singleton]
      omega

theorem unquote_special {ch : UInt8} (isSpecial : specialRank ch ≠ 0)
    (ranked : rank < specialRank ch) (line : Text) :
    unquote pos rank (92 :: letterOf ch :: line) =
      behind [ch] (unquote (pos + 1) (specialRank ch) line) := by
  obtain ⟨isRank, isByte⟩ := escapeRank_letterOf isSpecial
  rw [unquote, isRank, if_pos ⟨rfl, ranked⟩, isByte]
  rfl

theorem unquote_plain {ch : UInt8} (isPlain : specialRank ch = 0) (notBackslash : ch ≠ 92)
    (room : pos < stringSize) (line : Text) :
    unquote pos rank (ch :: line) = behind [ch] (unquote (pos + 1) 0 line) := by
  have notQuote : ch ≠ 34 := by
    rintro rfl
    cases isPlain
  rw [unquote_raw (fun isBackslash => absurd isBackslash notBackslash) room, if_neg notQuote]

theorem unquote_encode {text : Text} (valid : ∀ ch ∈ text, ch ≠ 92)
    (room : pos + text.length < stringSize) (ranked : Ranked rank text) (line : Text) :
    unquote pos rank (encode text ++ 34 :: line) = some (text ++ [0], line) := by
  induction text generalizing pos rank with
  | nil =>
    have noEscape : (34 : UInt8) = 92 → ∀ letter, line.head? = some letter →
        escapeRank letter ≤ rank := fun never => absurd never (by decide)
    show unquote pos rank (34 :: line) = _
    rw [unquote_raw noEscape (by simpa using room), if_pos rfl]
    rfl
  | cons ch text ih =>
    rw [List.length_cons] at room
    have others : ∀ other ∈ text, other ≠ 92 :=
      fun other within => valid other (List.mem_cons_of_mem _ within)
    rw [Ranked] at ranked
    rw [encode_cons]
    by_cases isPlain : specialRank ch = 0
    · rw [if_pos isPlain] at ranked ⊢
      rw [List.append_assoc, List.singleton_append,
        unquote_plain isPlain (valid ch List.mem_cons_self) (by omega),
        ih others (by omega) ranked]
      rfl
    · rw [if_neg isPlain] at ranked ⊢
      show unquote pos rank (92 :: letterOf ch :: (encode text ++ 34 :: line)) = _
      rw [unquote_special isPlain ranked.1, ih others (by omega) ranked.2]
      rfl

theorem unquote_unranked {text : Text} (valid : ∀ ch ∈ text, ch ≠ 92)
    (room : pos + text.length < stringSize) (unranked : ¬ Ranked rank text)
    {line stored left : Text}
    (found : unquote pos rank (encode text ++ 34 :: line) = some (stored, left)) :
    ∃ front ch more tail, text = front ++ ch :: more ∧ ch ≠ 92 ∧ stored = front ++ 92 :: tail := by
  induction text generalizing pos rank stored with
  | nil => exact absurd trivial unranked
  | cons ch text ih =>
    rw [List.length_cons] at room
    have notBackslash := valid ch List.mem_cons_self
    have others : ∀ other ∈ text, other ≠ 92 :=
      fun other within => valid other (List.mem_cons_of_mem _ within)
    have goesOn : ∀ {rank : Nat} {stored : Text}, ¬ Ranked rank text →
        behind [ch] (unquote (pos + 1) rank (encode text ++ 34 :: line)) = some (stored, left) →
        ∃ front special more tail, ch :: text = front ++ special :: more ∧ special ≠ 92 ∧
          stored = front ++ 92 :: tail := by
      intro rank stored isUnranked isFound
      obtain ⟨more, isMore, isBoth⟩ := Option.map_eq_some_iff.mp isFound
      cases isBoth
      obtain ⟨front, special, behindIt, tail, isText, notSame, isStored⟩ :=
        ih others (by omega) isUnranked isMore
      exact ⟨ch :: front, special, behindIt, tail, congrArg (List.cons ch) isText, notSame,
        congrArg (List.cons ch) isStored⟩
    rw [Ranked] at unranked
    rw [encode_cons] at found
    by_cases isPlain : specialRank ch = 0
    · rw [if_pos isPlain] at unranked found
      rw [List.append_assoc, List.singleton_append,
        unquote_plain isPlain notBackslash (by omega)] at found
      exact goesOn unranked found
    · rw [if_neg isPlain] at unranked found
      have isFound : unquote pos rank (92 :: letterOf ch :: (encode text ++ 34 :: line)) =
          some (stored, left) := found
      by_cases ranked : rank < specialRank ch
      · rw [unquote_special isPlain ranked] at isFound
        exact goesOn (fun isRanked => unranked ⟨ranked, isRanked⟩) isFound
      · have notEscape : (92 : UInt8) = 92 → ∀ letter,
            (letterOf ch :: (encode text ++ 34 :: line)).head? = some letter →
              escapeRank letter ≤ rank := by
          rintro _ letter isLetter
          cases isLetter
          rw [(escapeRank_letterOf isPlain).1]
          omega
        rw [unquote_raw notEscape (by omega), if_neg (by decide)] at isFound
        obtain ⟨more, _, isBoth⟩ := Option.map_eq_some_iff.mp isFound
        cases isBoth
        exact ⟨[], ch, text, more.1, rfl, notBackslash, rfl⟩

theorem argumentOf_opened (text line : Text) :
    argumentOf ((Argument.quoted text).written ++ line) =
      unquote 0 4 (encode text ++ 34 :: line) := by
  have isWritten : (Argument.quoted text).written ++ line = 34 :: (encode text ++ 34 :: line) := by
    simp only [Argument.written, List.cons_append, List.append_assoc, List.nil_append]
  have notPrefixed : (34 :: (encode text ++ 34 :: line)).take 2 ≠ [92, 34] := by
    intro never
    have sameHead : (34 : UInt8) = 92 := Option.some.inj (congrArg List.head? never)
    exact absurd sameHead (by decide)
  rw [isWritten, argumentOf, if_neg notPrefixed, wordOrQuoted, List.head?_cons, if_pos rfl,
    List.tail_cons]

theorem argumentOf_bare {text line : Text} (valid : (Argument.bare text).Valid)
    (room : text.length < stringSize)
    (stops : ∀ ch, line.head? = some ch → isWhiteSpace ch = true) :
    argumentOf (text ++ line) = some (text ++ [0], line) := by
  obtain ⟨notEmpty, plain, notQuote, _⟩ := valid
  have isRun : (text ++ line).takeWhile (fun ch => !isWhiteSpace ch) = text := by
    have all : ∀ ch ∈ text, (!isWhiteSpace ch) = true := by
      intro ch within
      rw [(plain ch within).1]
      rfl
    rw [List.takeWhile_append_of_pos all]
    cases line with
    | nil => exact List.append_nil _
    | cons ch line =>
      rw [List.takeWhile_cons, stops ch rfl]
      exact List.append_nil _
  have fits : 0 + text.length < stringSize := by omega
  have isWord : word 0 (text ++ line) = (text ++ [0], line) := by
    rw [word, isRun, if_pos fits, List.drop_left]
  cases text with
  | nil => exact absurd rfl notEmpty
  | cons ch text =>
    have notPrefixed : (ch :: text ++ line).take 2 ≠ [92, 34] := by
      intro never
      exact (plain ch List.mem_cons_self).2 (Option.some.inj (congrArg List.head? never))
    have notOpened : (ch :: text ++ line).head? ≠ some 34 := notQuote
    rw [argumentOf, if_neg notPrefixed, wordOrQuoted, if_neg notOpened, isWord]

theorem argumentOf_clear {argument : Argument} {line : Text} (valid : argument.Valid)
    (clear : argument.Clear) (room : argument.text.length < stringSize)
    (stops : argument.IsQuoted ∨ ∀ ch, line.head? = some ch → isWhiteSpace ch = true) :
    argumentOf (argument.written ++ line) = some (argument.text ++ [0], line) := by
  cases argument with
  | bare text =>
    rcases stops with never | stops
    · exact never.elim
    · exact argumentOf_bare valid room stops
  | quoted text =>
    rw [argumentOf_opened]
    have isRoom : 0 + text.length < stringSize := by
      rw [Nat.zero_add]
      exact room
    exact unquote_encode (fun ch within => (valid ch within).2) isRoom clear line

theorem argumentOf_unclear {argument : Argument} {line stored left : Text}
    (valid : argument.Valid) (unclear : ¬ argument.Clear)
    (room : argument.text.length < stringSize)
    (found : argumentOf (argument.written ++ line) = some (stored, left)) :
    ∃ front ch more tail, argument.text = front ++ ch :: more ∧ ch ≠ 92 ∧
      stored = front ++ 92 :: tail := by
  cases argument with
  | bare text => exact absurd trivial unclear
  | quoted text =>
    rw [argumentOf_opened] at found
    have isRoom : 0 + text.length < stringSize := by
      rw [Nat.zero_add]
      exact room
    exact unquote_unranked (fun ch within => (valid ch within).2) isRoom unclear found

theorem written_head {argument : Argument} (valid : argument.Valid) :
    ∃ ch more, argument.written = ch :: more ∧ isWhiteSpace ch = false ∧ ch ≠ 35 := by
  cases argument with
  | bare text =>
    obtain ⟨notEmpty, plain, _, notComment⟩ := valid
    obtain ⟨ch, more, rfl⟩ := List.exists_cons_of_ne_nil notEmpty
    refine ⟨ch, more, rfl, (plain ch List.mem_cons_self).1, ?_⟩
    rintro rfl
    exact notComment rfl
  | quoted text => exact ⟨34, encode text ++ [34], rfl, rfl, by decide⟩

theorem text_length_le (argument : Argument) :
    argument.text.length ≤ argument.written.length := by
  cases argument with
  | bare text => exact le_refl _
  | quoted text =>
    have atMost := length_le_encode text
    show text.length ≤ (34 :: (encode text ++ [34])).length
    rw [List.length_cons, List.length_append]
    omega

theorem text_string {argument : Argument} (valid : argument.Valid) :
    ∀ ch ∈ argument.text, ch ≠ 0 := by
  cases argument with
  | bare text =>
    intro ch within
    rintro rfl
    exact absurd (valid.2.1 0 within).1 (by decide)
  | quoted text => exact fun ch within => (valid ch within).1

end Written

structure Written (lead : Text) (items : Items) (comment : Option Text) (line : Text) : Prop where
  isLine : line = lead ++ (items.written ++ commentText comment)
  blank : ∀ ch ∈ lead, isWhiteSpace ch = true
  valid : ∀ item ∈ items, item.1.Valid
  separated : Separated comment items
  string : 0 ∉ line

def Filled (table : Mem) : (row : Nat) → Items → Prop
  | _, [] => True
  | row, item :: items =>
    table.cString ((maxConfigArgNum - row) * stringSize) (row * stringSize) = item.1.text ∧
      Filled table (row + 1) items

section Rows

variable {row : Nat} {items : Items}

theorem filled_iff (table : Mem) :
    (List.range' row items.length).map
        (fun row => table.cString ((maxConfigArgNum - row) * stringSize) (row * stringSize)) =
      items.map (fun item => item.1.text) ↔ Filled table row items := by
  induction items generalizing row with
  | nil => exact iff_of_true rfl trivial
  | cons item items ih =>
    rw [List.length_cons, List.range'_succ, List.map_cons, List.map_cons, List.cons_eq_cons, ih]
    rfl

theorem argumentList_iff (found : Nat × Mem) :
    argumentList found = items.map (fun item => item.1.text) ↔
      found.1 = items.length ∧ Filled found.2 0 items := by
  have isRange : List.range items.length = List.range' 0 items.length := List.range_eq_range'
  constructor
  · intro same
    have isCount : found.1 = items.length := by
      have lengths := congrArg List.length same
      rwa [argumentList, List.length_map, List.length_range, List.length_map] at lengths
    refine ⟨isCount, (filled_iff found.2).mp ?_⟩
    rw [← isRange, ← isCount]
    exact same
  · rintro ⟨isCount, filled⟩
    rw [argumentList, isCount, isRange]
    exact (filled_iff found.2).mpr filled

theorem apply_of_cString {mem : Mem} {fuel start : Nat} {front more : Text} {ch : UInt8}
    (isString : mem.cString fuel start = front ++ ch :: more) :
    mem (start + front.length) = ch := by
  induction front generalizing fuel start with
  | nil =>
    cases fuel with
    | zero => cases isString
    | succ fuel =>
      rw [Mem.cString] at isString
      split at isString
      · cases isString
      · exact (List.cons.inj isString).1
  | cons first front ih =>
    cases fuel with
    | zero => cases isString
    | succ fuel =>
      rw [Mem.cString] at isString
      split at isString
      · cases isString
      · rw [List.length_cons, Nat.add_comm front.length, ← Nat.add_assoc]
        exact ih (List.cons.inj isString).2

theorem dropWhile_lead {lead line : Text} (blank : ∀ ch ∈ lead, isWhiteSpace ch = true) :
    (lead ++ line).dropWhile isWhiteSpace = line.dropWhile isWhiteSpace :=
  List.dropWhile_append_of_pos blank

theorem store_eq {argument : Mem} {stored : Text} (isRow : row < maxConfigArgNum)
    (short : stored.length ≤ stringSize) :
    store argument row stored = some (argument.write (row * stringSize) stored) := by
  have fits : row * stringSize + stored.length ≤ maxConfigArgNum * stringSize := by
    have isNext : (row + 1) * stringSize ≤ maxConfigArgNum * stringSize :=
      Nat.mul_le_mul_right _ isRow
    rw [Nat.succ_mul] at isNext
    omega
  rw [store, if_pos fits]

theorem separated_head {item : Argument × Text} {comment : Option Text}
    (separated : Separated comment (item :: items)) :
    item.1.IsQuoted ∨ ∀ ch, (item.2 ++ (items.written ++ commentText comment)).head? = some ch →
      isWhiteSpace ch = true := by
  obtain ⟨blank, notEmpty | isQuoted | ⟨rfl, rfl⟩, _⟩ := separated
  · obtain ⟨first, more, isGap⟩ := List.exists_cons_of_ne_nil notEmpty
    refine .inr fun ch isCh => ?_
    rw [isGap, List.cons_append, List.head?_cons] at isCh
    rw [← Option.some.inj isCh]
    exact (blank first (by rw [isGap]; exact List.mem_cons_self)).1
  · exact .inl isQuoted
  · have isGap : item.2 ++ (Items.written [] ++ commentText none) = item.2 := List.append_nil _
    rw [isGap]
    exact .inr fun ch isCh => (blank ch (List.mem_of_head? isCh)).1

theorem parseLoop_written {lead line : Text} {comment : Option Text} {strlen rounds : Nat}
    (written : Written lead items comment line) (enough : line.length < rounds)
    (inLine : line.length ≤ strlen) (short : line.length < stringSize)
    (few : row + items.length ≤ maxConfigArgNum) (argument : Mem) :
    (∃ found, parseLoop (strlen + 1) strlen rounds (line ++ [0]) row argument = some found ∧
        found.1 = row + items.length ∧ Filled found.2 row items) ↔
      comment.isSome = true ∧ ∀ item ∈ items, item.1.Clear := by
  induction items generalizing lead line row argument rounds with
  | nil =>
    obtain ⟨rfl, blank, _, _, _⟩ := written
    cases comment with
    | none =>
      have isEnd : (lead ++ (Items.written [] ++ commentText none)).dropWhile
          isWhiteSpace = [] := dropWhile_lead blank
      rw [parseLoop_end isEnd]
      refine iff_of_false (fun never => ?_) (fun never => Bool.false_ne_true never.1)
      obtain ⟨_, never, _⟩ := never
      cases never
    | some text =>
      have isNext : (lead ++ (Items.written [] ++ commentText (some text))).dropWhile
          isWhiteSpace = 35 :: text := dropWhile_lead blank
      obtain ⟨rounds, rfl⟩ := Nat.exists_eq_succ_of_ne_zero (Nat.ne_zero_of_lt enough)
      rw [parseLoop_comment isNext inLine]
      refine iff_of_true ⟨_, rfl, rfl, trivial⟩ ⟨rfl, fun item never => ?_⟩
      cases never
  | cons item items ih =>
    have separated := written.separated
    have isValid := written.valid item List.mem_cons_self
    obtain ⟨ch, more, isHead, notBlank, notComment⟩ := written_head isValid
    obtain ⟨rounds, rfl⟩ := Nat.exists_eq_succ_of_ne_zero (Nat.ne_zero_of_lt enough)
    generalize isRest : item.2 ++ (Items.written items ++ commentText comment) = rest
    have isLine : line = lead ++ (item.1.written ++ rest) := by
      rw [written.isLine, ← isRest]
      simp only [Items.written, List.flatMap_cons, List.append_assoc]
    have isNext : line.dropWhile isWhiteSpace = ch :: (more ++ rest) := by
      rw [isLine, dropWhile_lead written.blank, isHead, List.cons_append, List.dropWhile_cons,
        notBlank]
      rfl
    have string : 0 ∉ ch :: (more ++ rest) := by
      rw [← isNext]
      exact fun within => written.string ((List.dropWhile_suffix _).subset within)
    have isWhole : item.1.written ++ rest = ch :: (more ++ rest) := by
      rw [isHead]
      rfl
    have length : line.length = lead.length + (item.1.written.length + rest.length) := by
      rw [isLine, List.length_append, List.length_append]
    have atMost := text_length_le item.1
    have isShort : item.1.text.length < stringSize := by omega
    have positive : 0 < item.1.written.length := by
      rw [isHead]
      exact Nat.succ_pos _
    rw [List.length_cons] at few
    have isRow : row < maxConfigArgNum := by omega
    have agrees := getConfig_agrees string
    by_cases clear : item.1.Clear
    · have isArgument : argumentOf (ch :: (more ++ rest)) = some (item.1.text ++ [0], rest) := by
        rw [← isWhole]
        refine argumentOf_clear isValid clear isShort ?_
        rw [← isRest]
        exact separated_head separated
      rw [isArgument] at agrees
      have called : getConfig (ch :: (more ++ rest) ++ [0]) =
          some (item.1.text ++ [0], rest ++ [0]) := agrees
      have isStored := @store_eq _ argument (item.1.text ++ [0]) isRow
        (by rw [List.length_append, List.length_singleton]; omega)
      have isFollowing : Written item.2 items comment rest :=
        { isLine := isRest.symm
          blank := fun ch within => (separated.1 ch within).1
          valid := fun other within => written.valid other (List.mem_cons_of_mem _ within)
          separated := separated.2.2
          string := fun within =>
            string (List.mem_cons_of_mem _ (List.mem_append_right _ within)) }
      have step : parseLoop (strlen + 1) strlen (rounds + 1) (line ++ [0]) row argument =
          parseLoop (strlen + 1) strlen rounds (rest ++ [0]) (row + 1)
            (argument.write (row * stringSize) (item.1.text ++ [0])) := by
        rw [parseLoop_argument isNext notComment inLine, called, Option.bind_some, isStored,
          Option.bind_some, if_neg (by omega)]
      have inRow : ∀ found : Nat × Mem,
          parseLoop (strlen + 1) strlen rounds (rest ++ [0]) (row + 1)
            (argument.write (row * stringSize) (item.1.text ++ [0])) = some found →
          found.2.cString ((maxConfigArgNum - row) * stringSize) (row * stringSize) =
            item.1.text := by
        intro found ran
        refine Mem.HoldsString.cString ⟨?_, text_string isValid⟩ ?_
        · have inFirst := (Mem.HoldsString.of_write argument (row * stringSize)
            (text_string isValid)).bytes
          rw [← inFirst]
          refine Mem.read_congr fun index bound => parseLoop_keeps ran ?_
          rw [Nat.succ_mul]
          omega
        · have oneRow : 1 * stringSize ≤ (maxConfigArgNum - row) * stringSize :=
            Nat.mul_le_mul_right _ (Nat.sub_pos_of_lt isRow)
          omega
      have others := @ih (row + 1) _ _ rounds isFollowing (by omega) (by omega) (by omega)
        (by omega) (argument.write (row * stringSize) (item.1.text ++ [0]))
      rw [step, List.forall_mem_cons, List.length_cons]
      constructor
      · rintro ⟨found, ran, isCount, _, filled⟩
        obtain ⟨isSome, allClear⟩ := others.mp ⟨found, ran, by omega, filled⟩
        exact ⟨isSome, clear, allClear⟩
      · rintro ⟨isSome, _, allClear⟩
        obtain ⟨found, ran, isCount, filled⟩ := others.mpr ⟨isSome, allClear⟩
        exact ⟨found, ran, by omega, inRow found ran, filled⟩
    · refine iff_of_false ?_ fun all => clear (all.2 item List.mem_cons_self)
      rintro ⟨found, ran, _, isString, _⟩
      cases isArgument : argumentOf (ch :: (more ++ rest)) with
      | none =>
        rw [parseLoop_unclosed isNext notComment isArgument string inLine] at ran
        cases ran
      | some got =>
        obtain ⟨stored, left⟩ := got
        rw [isArgument] at agrees
        have called : getConfig (ch :: (more ++ rest) ++ [0]) = some (stored, left ++ [0]) :=
          agrees
        rw [parseLoop_argument isNext notComment inLine, called, Option.bind_some] at ran
        obtain ⟨after, isStored, ran⟩ := Option.bind_eq_some_iff.mp ran
        rw [if_neg (by omega)] at ran
        rw [← isWhole] at isArgument
        obtain ⟨front, special, behindIt, tail, isText, notBackslash, rfl⟩ :=
          argumentOf_unclear isValid clear isShort isArgument
        have inText : front.length < item.1.text.length := by
          rw [isText, List.length_append, List.length_cons]
          omega
        have isAfter : after = argument.write (row * stringSize) (front ++ 92 :: tail) := by
          rw [store] at isStored
          split at isStored
          · exact (Option.some.inj isStored).symm
          · cases isStored
        have isSpecial : found.2 (row * stringSize + front.length) = special := by
          rw [isText] at isString
          exact apply_of_cString isString
        refine notBackslash (isSpecial.symm.trans ?_)
        rw [parseLoop_keeps ran (by rw [Nat.succ_mul]; omega), isAfter,
          Mem.write_apply_inside (by rw [List.length_append, List.length_cons]; omega),
          List.getElem_append_right (Nat.le_refl _)]
        simp only [Nat.sub_self, List.getElem_cons_zero]

end Rows

/-- A line is lexed inside of its bytes and of the table exactly when it comes to a comment,
and a written line is then lexed to its arguments exactly when each is clear. -/
theorem lineParse_lexes_iff {line : Text} (string : 0 ∉ line) (argument : Mem) :
    ((∃ found, lineParse (line ++ [0]) argument = some found ∧ found.1 ≤ maxConfigArgNum) ↔
      Stops 0 line) ∧
    ∀ lead items comment, Written lead items comment line → line.length < stringSize →
      items.length ≤ maxConfigArgNum →
      ((∃ found, lineParse (line ++ [0]) argument = some found ∧
          argumentList found = items.map fun item => item.1.text) ↔
        comment.isSome = true ∧ ∀ item ∈ items, item.1.Clear) := by
  constructor
  · rw [← isSome_lineParse_iff string argument, Option.isSome_iff_exists]
    constructor
    · rintro ⟨found, ran, _⟩
      exact ⟨found, ran⟩
    · rintro ⟨found, ran⟩
      exact ⟨found, ran, count_parseLoop (Nat.zero_le _) ran⟩
  · intro lead items comment written short few
    simp only [argumentList_iff]
    rw [lineParse, length_takeWhile_string string, List.length_append]
    have all := @parseLoop_written 0 _ _ _ _ _ _ written (Nat.lt_succ_self _) (le_refl _) short
      (by rwa [Nat.zero_add]) argument
    rwa [Nat.zero_add] at all

/-- The line `a "b" #c`. -/
theorem lineParse_lexes_two :
    (∃ found, lineParse ([97, 32, 34, 98, 34, 32, 35, 99] ++ [0]) (fun _ => 0) = some found ∧
      found.1 ≤ maxConfigArgNum) ∧
    ∃ found, lineParse ([97, 32, 34, 98, 34, 32, 35, 99] ++ [0]) (fun _ => 0) = some found ∧
      argumentList found = [[97], [98]] := by
  have both := lineParse_lexes_iff
    (by decide : (0 : UInt8) ∉ [97, 32, 34, 98, 34, 32, 35, 99]) (fun _ => 0)
  have stops : Stops 0 [97, 32, 34, 98, 34, 32, 35, 99] :=
    .argument rfl (by decide) rfl (by decide) (by decide)
      (.blank rfl (.argument rfl (by decide) rfl (by decide) (by decide) (.blank rfl .comment)))
  have written : Written [] [(.bare [97], [32]), (.quoted [98], [32])] (some [99])
      [97, 32, 34, 98, 34, 32, 35, 99] :=
    { isLine := rfl
      blank := fun ch never => by cases never
      valid := by
        intro item within
        rcases List.mem_pair.mp within with rfl | rfl
        · exact ⟨by decide, by decide +kernel, by decide, by decide⟩
        · exact List.forall_mem_singleton.mpr ⟨by decide, by decide⟩
      separated :=
        ⟨by decide +kernel, .inl (by decide), by decide +kernel, .inr (.inl trivial), trivial⟩
      string := by decide +kernel }
  refine ⟨both.1.mpr stops, (both.2 _ _ _ written (by decide) (by decide)).mpr ⟨rfl, ?_⟩⟩
  intro item within
  rcases List.mem_pair.mp within with rfl | rfl
  · exact trivial
  · exact (trivial : Ranked 0 [])

/-- The line `a` is read behind its NUL, and the argument of `"\n"#` is not one byte. -/
theorem lineParse_notLexed :
    lineParse ([97] ++ [0]) (fun _ => 0) = none ∧
    ((lineParse ([34, 92, 110, 34, 35] ++ [0]) fun _ => 0).map argumentList) =
      some [[92, 110]] := by
  decide +kernel

end Wisebot.Common.Config
