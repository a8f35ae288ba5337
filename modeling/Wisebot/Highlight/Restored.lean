import Wisebot.Highlight.Tags

namespace Wisebot.Highlight

/-! When the text is what is left of a highlighted text without its tags. A word
found ignoring case is put in as the search spells it, and what does not fit into the
buffer of an eojeol is lost. -/

variable (env : Env)

/-- The field holds a text that is the given one but for its tags. -/
def Restored (words : List (List UInt8)) (text : List UInt8) : Prop :=
  ∃ out, highlight env words text = .success out ∧ erase out = text

/-- The bytes of the text in an occurrence are those of the word. -/
def SpelledAt (word : List UInt8) (str : List Letter) (pos : Nat) : Prop :=
  ∀ pair ∈ (str.drop pos).zip word, pair.1.inserted = false → pair.2 = pair.1.byte

def Fits (length : Nat) : Prop :=
  env.preTag.length + length + env.postTag.length < stringSize

def WordKept (word : List UInt8) (str : List Letter) : Prop :=
  ∀ pos, strcasestrh word str = some pos → isPassedOver env word str pos = false →
    Fits env str.length ∧ SpelledAt word str pos

def WordsKept : (words : List (List UInt8)) → List Letter → Prop
  | [], _ => True
  | word :: words, str =>
    WordKept env word str ∧
      ∀ after, highlightWord env word str = some after → WordsKept words after

/-- Nothing of an eojeol is cut off, and each word that is put between tags is
spelled as in the text. -/
def EojeolKept (words : List (List UInt8)) (eojeol : List UInt8) : Prop :=
  eojeol.length < stringSize ∧
    match env.unit with
    | .word => WordsKept env words (plain eojeol)
    | .eojeol =>
      (words.any fun word => (strstr word (plain eojeol)).isSome) = true →
        Fits env eojeol.length

def Kept (words : List (List UInt8)) (text : List UInt8) : Prop :=
  words = [] ∨
    ∃ pieces, cut env text = some pieces ∧ ∀ piece ∈ pieces, EojeolKept env words piece.1

section Erasing

@[simp] theorem erase_append (first second : List Letter) :
    erase (first ++ second) = erase first ++ erase second := by
  simp [erase]

@[simp] theorem erase_tag (text : List UInt8) : erase (tag text) = [] := by
  simp [erase, tag]

@[simp] theorem erase_plain (text : List UInt8) : erase (plain text) = text := by
  simp [erase, plain, List.filter_map, Function.comp_def]

theorem length_erase_respell (word : List UInt8) (letters : List Letter)
    (within : word.length ≤ letters.length) :
    (erase (respell word letters)).length = (erase (letters.take word.length)).length := by
  induction word generalizing letters with
  | nil => simp [respell, erase]
  | cons byte word ih =>
    cases letters with
    | nil => simp at within
    | cons letter letters =>
      have rest := ih letters (by simpa using within)
      simp only [respell, erase, List.zipWith_cons_cons, List.length_cons,
        List.take_succ_cons, List.length_map] at rest ⊢
      cases inserted : letter.inserted <;> simp [inserted, rest]

theorem erase_respell_iff (word : List UInt8) (letters : List Letter)
    (within : word.length ≤ letters.length) :
    erase (respell word letters) = erase (letters.take word.length) ↔
      ∀ pair ∈ letters.zip word, pair.1.inserted = false → pair.2 = pair.1.byte := by
  induction word generalizing letters with
  | nil => simp [respell, erase]
  | cons byte word ih =>
    cases letters with
    | nil => simp at within
    | cons letter letters =>
      have rest := ih letters (by simpa using within)
      simp only [respell, erase, List.zipWith_cons_cons, List.length_cons,
        List.take_succ_cons, List.zip_cons_cons, List.forall_mem_cons] at rest ⊢
      rw [← rest]
      cases inserted : letter.inserted <;> simp [inserted]

theorem find_within {fold : UInt8 → UInt8} {word : List UInt8} {str : List Letter} {pos : Nat}
    (found : find fold word str = some pos) : pos + word.length ≤ str.length := by
  induction str generalizing pos with
  | nil =>
    rw [find] at found
    split at found
    · rename_i isEmpty
      cases found
      simp [isEmpty]
    · cases found
  | cons letter rest ih =>
    rw [find] at found
    split at found
    · rename_i same
      cases found
      have lengths := congrArg List.length same
      simp only [List.length_map, List.length_take, bytes, List.length_cons] at lengths
      simp only [List.length_cons]
      omega
    · obtain ⟨later, foundLater, rfl⟩ := Option.map_eq_some_iff.mp found
      have within := ih foundLater
      simp only [List.length_cons]
      omega

theorem split_at (word : List UInt8) (str : List Letter) (pos : Nat) :
    str.take pos ++ (str.drop pos).take word.length ++ str.drop (pos + word.length) = str := by
  rw [List.append_assoc, ← List.drop_drop, List.take_append_drop, List.take_append_drop]

end Erasing

section Words

variable {word : List UInt8} {str : List Letter} {pos : Nat}

def between (word : List UInt8) (str : List Letter) (pos : Nat) : List Letter :=
  str.take pos ++ tag env.preTag ++ respell word (str.drop pos) ++ tag env.postTag ++
    str.drop (pos + word.length)

theorem length_between (within : pos + word.length ≤ str.length) :
    (between env word str pos).length =
      env.preTag.length + str.length + env.postTag.length := by
  simp only [between, respell, tag, List.length_append, List.length_take, List.length_map,
    List.length_zipWith, List.length_drop]
  omega

theorem erase_between (word : List UInt8) (str : List Letter) (pos : Nat) :
    erase (between env word str pos) =
      erase (str.take pos) ++ erase (respell word (str.drop pos)) ++
        erase (str.drop (pos + word.length)) := by
  simp [between]

theorem erase_eq_split (word : List UInt8) (str : List Letter) (pos : Nat) :
    erase str =
      erase (str.take pos) ++ erase ((str.drop pos).take word.length) ++
        erase (str.drop (pos + word.length)) := by
  calc erase str
      = erase (str.take pos ++ (str.drop pos).take word.length ++
          str.drop (pos + word.length)) := by rw [split_at]
    _ = _ := by rw [erase_append, erase_append]

theorem erase_between_iff (within : pos + word.length ≤ str.length) :
    erase (between env word str pos) = erase str ↔ SpelledAt word str pos := by
  have enough : word.length ≤ (str.drop pos).length := by
    rw [List.length_drop]
    omega
  rw [erase_between, erase_eq_split word str pos, List.append_left_inj, List.append_right_inj,
    erase_respell_iff word (str.drop pos) enough]
  rfl

theorem length_erase_between (within : pos + word.length ≤ str.length) :
    (erase (between env word str pos)).length = (erase str).length := by
  have enough : word.length ≤ (str.drop pos).length := by
    rw [List.length_drop]
    omega
  have same := length_erase_respell word (str.drop pos) enough
  have split := congrArg List.length (erase_eq_split word str pos)
  simp only [List.length_append] at split
  simp only [erase_between, List.length_append]
  omega

theorem buffered_between (within : pos + word.length ≤ str.length) (room : Fits env str.length) :
    buffered (between env word str pos) = some (between env word str pos) := by
  rw [Fits] at room
  rw [buffered, length_between env within, if_pos room]

theorem buffered_eq_some {built after : List Letter} (kept : buffered built = some after) :
    after = built ∧ built.length < stringSize := by
  rw [buffered] at kept
  split at kept
  · rename_i room
    exact ⟨(Option.some.inj kept).symm, room⟩
  · cases kept

theorem highlightWord_passed (none_or : ∀ pos, strcasestrh word str = some pos →
    isPassedOver env word str pos = true) : highlightWord env word str = some str := by
  rw [highlightWord]
  cases found : strcasestrh word str with
  | none => rfl
  | some pos => simp only [none_or pos found, if_true]

theorem highlightWord_found (found : strcasestrh word str = some pos)
    (taken : isPassedOver env word str pos = false) :
    highlightWord env word str = buffered (between env word str pos) := by
  simp only [highlightWord, found, taken, Bool.false_eq_true, if_false, between]

theorem length_erase_highlightWord {after : List Letter}
    (ran : highlightWord env word str = some after) :
    (erase after).length = (erase str).length := by
  by_cases passed : ∀ pos, strcasestrh word str = some pos → isPassedOver env word str pos = true
  · rw [highlightWord_passed env passed] at ran
    rw [← Option.some.inj ran]
  · simp only [not_forall, Bool.not_eq_true] at passed
    obtain ⟨pos, found, taken⟩ := passed
    rw [highlightWord_found env found taken] at ran
    rw [(buffered_eq_some ran).1, length_erase_between env (find_within found)]

theorem highlightWord_iff :
    (∃ after, highlightWord env word str = some after ∧ erase after = erase str) ↔
      WordKept env word str := by
  constructor
  · rintro ⟨after, ran, same⟩ pos found taken
    rw [highlightWord_found env found taken] at ran
    obtain ⟨rfl, room⟩ := buffered_eq_some ran
    rw [length_between env (find_within found)] at room
    exact ⟨room, (erase_between_iff env (find_within found)).mp same⟩
  · intro kept
    by_cases passed :
        ∀ pos, strcasestrh word str = some pos → isPassedOver env word str pos = true
    · exact ⟨str, highlightWord_passed env passed, rfl⟩
    · simp only [not_forall, Bool.not_eq_true] at passed
      obtain ⟨pos, found, taken⟩ := passed
      obtain ⟨room, spelled⟩ := kept pos found taken
      refine ⟨between env word str pos, ?_, (erase_between_iff env (find_within found)).mpr spelled⟩
      rw [highlightWord_found env found taken, buffered_between env (find_within found) room]

theorem length_erase_highlightStringByWord {words : List (List UInt8)} {after : List Letter}
    (ran : highlightStringByWord env words str = some after) :
    (erase after).length = (erase str).length := by
  induction words generalizing str with
  | nil =>
    cases ran
    rfl
  | cons word words ih =>
    rw [highlightStringByWord] at ran
    split at ran
    · cases ran
    · rename_i middle first
      rw [ih ran, length_erase_highlightWord env first]

theorem highlightStringByWord_iff (words : List (List UInt8)) (str : List Letter) :
    (∀ count, ∃ after, highlightStringByWord env (words.take count) str = some after ∧
        erase after = erase str) ↔ WordsKept env words str := by
  induction words generalizing str with
  | nil =>
    constructor
    · exact fun _ => trivial
    · exact fun _ count => ⟨str, by rw [List.take_nil]; rfl, rfl⟩
  | cons word words ih =>
    constructor
    · intro all
      obtain ⟨first, ran, same⟩ := all 1
      have once : highlightWord env word str = some first := by
        simp only [List.take_succ_cons, List.take_zero, highlightStringByWord] at ran
        split at ran
        · cases ran
        · rename_i found
          rw [found, ran]
      refine ⟨(highlightWord_iff env).mp ⟨first, once, same⟩, fun after ranAfter => ?_⟩
      obtain rfl := Option.some.inj (once.symm.trans ranAfter)
      apply (ih first).mp
      intro count
      obtain ⟨after, ranOn, sameOn⟩ := all (count + 1)
      simp only [List.take_succ_cons, highlightStringByWord, once] at ranOn
      exact ⟨after, ranOn, sameOn.trans same.symm⟩
    · rintro ⟨kept, later⟩ count
      cases count with
      | zero => exact ⟨str, rfl, rfl⟩
      | succ count =>
        obtain ⟨first, once, same⟩ := (highlightWord_iff env).mpr kept
        obtain ⟨after, ranOn, sameOn⟩ := (ih first).mpr (later first once) count
        refine ⟨after, ?_, sameOn.trans same⟩
        simp only [List.take_succ_cons, highlightStringByWord, once]
        exact ranOn

end Words

section Eojeols

theorem plain_cut {eojeol : List UInt8} (short : eojeol.length < stringSize) :
    eojeol.take (stringSize - 1) = eojeol :=
  List.take_of_length_le (Nat.le_pred_of_lt short)

theorem length_erase_highlightEojeol {words : List (List UInt8)} {eojeol : List UInt8}
    {after : List Letter} (ran : highlightEojeol env words eojeol = some after) :
    (erase after).length = (eojeol.take (stringSize - 1)).length := by
  simp only [highlightEojeol] at ran
  split at ran
  · rw [length_erase_highlightStringByWord env ran, erase_plain]
  · rw [highlightStringByEojeol] at ran
    split at ran
    · rw [(buffered_eq_some ran).1]
      simp
    · rw [← Option.some.inj ran, erase_plain]

theorem short_of_erase {words : List (List UInt8)} {eojeol : List UInt8} {after : List Letter}
    (ran : highlightEojeol env words eojeol = some after) (same : erase after = eojeol) :
    eojeol.length < stringSize := by
  have lengths := length_erase_highlightEojeol env ran
  rw [same, List.length_take, stringSize] at lengths
  rw [stringSize]
  omega

theorem highlightStringByEojeol_iff (words : List (List UInt8)) (eojeol : List UInt8) :
    (∃ after, highlightStringByEojeol env words (plain eojeol) = some after ∧
        erase after = eojeol) ↔
      ((words.any fun word => (strstr word (plain eojeol)).isSome) = true →
        Fits env eojeol.length) := by
  rw [highlightStringByEojeol]
  by_cases occurs : (words.any fun word => (strstr word (plain eojeol)).isSome) = true
  · rw [if_pos occurs, buffered]
    have length : (tag env.preTag ++ plain eojeol ++ tag env.postTag).length =
        env.preTag.length + eojeol.length + env.postTag.length := by
      simp [tag, plain, Nat.add_assoc]
    rw [length]
    constructor
    · rintro ⟨after, ran, _⟩ _
      split at ran
      · rename_i room
        exact room
      · cases ran
    · intro room
      exact ⟨_, if_pos (room occurs), by simp⟩
  · rw [if_neg occurs]
    exact ⟨fun _ found => absurd found occurs, fun _ => ⟨_, rfl, erase_plain eojeol⟩⟩

theorem any_take {words : List (List UInt8)} {occurs : List UInt8 → Bool} {count : Nat}
    (found : (words.take count).any occurs = true) : words.any occurs = true := by
  obtain ⟨word, member, here⟩ := List.any_eq_true.mp found
  exact List.any_eq_true.mpr ⟨word, List.mem_of_mem_take member, here⟩

theorem highlightEojeol_iff (words : List (List UInt8)) (eojeol : List UInt8) :
    (∀ count, ∃ after, highlightEojeol env (words.take count) eojeol = some after ∧
        erase after = eojeol) ↔ EojeolKept env words eojeol := by
  have atLength (short : eojeol.length < stringSize) :
      (∀ count, ∃ after, highlightEojeol env (words.take count) eojeol = some after ∧
        erase after = eojeol) ↔
      match env.unit with
      | .word => WordsKept env words (plain eojeol)
      | .eojeol =>
        (words.any fun word => (strstr word (plain eojeol)).isSome) = true →
          Fits env eojeol.length := by
    simp only [highlightEojeol, plain_cut short]
    cases env.unit with
    | word =>
      have byWord := highlightStringByWord_iff env words (plain eojeol)
      rw [erase_plain] at byWord
      exact byWord
    | eojeol =>
      simp only [highlightStringByEojeol_iff]
      constructor
      · intro all occurs
        apply all words.length
        rw [List.take_length]
        exact occurs
      · exact fun room count occurs => room (any_take occurs)
  constructor
  · intro all
    obtain ⟨after, ran, same⟩ := all 0
    have short := short_of_erase env ran same
    exact ⟨short, (atLength short).mp all⟩
  · rintro ⟨short, kept⟩
    exact (atLength short).mpr kept

end Eojeols

section Texts

def joined (pieces : List (List UInt8 × List UInt8)) : List UInt8 :=
  pieces.flatMap fun piece => piece.1 ++ piece.2

theorem joined_cutFrom {eojeol text : List UInt8} {pieces : List (List UInt8 × List UInt8)}
    (cut : cutFrom env eojeol text = some pieces) : joined pieces = eojeol ++ text := by
  induction eojeol, text using cutFrom.induct env generalizing pieces with
  | case1 eojeol =>
    cases cut
    simp [joined]
  | case2 eojeol byte isSeparator =>
    rw [cutFrom, if_pos isSeparator] at cut
    cases cut
    simp [joined]
  | case3 eojeol byte noSeparator isHalf =>
    rw [cutFrom, if_neg noSeparator, if_pos isHalf] at cut
    cases cut
  | case4 eojeol byte noSeparator noHalf =>
    rw [cutFrom, if_neg noSeparator, if_neg noHalf] at cut
    cases cut
    simp [joined]
  | case5 eojeol byte next rest isSeparator ih =>
    rw [cutFrom, if_pos isSeparator] at cut
    obtain ⟨later, cutLater, rfl⟩ := Option.map_eq_some_iff.mp cut
    have joinedLater := ih cutLater
    simp only [joined, List.flatMap_cons] at joinedLater ⊢
    rw [joinedLater]
    simp
  | case6 eojeol byte next rest noSeparator isPair ih =>
    rw [cutFrom, if_neg noSeparator, if_pos isPair] at cut
    obtain ⟨later, cutLater, rfl⟩ := Option.map_eq_some_iff.mp cut
    have joinedLater := ih cutLater
    simp only [joined, List.flatMap_cons] at joinedLater ⊢
    rw [joinedLater]
    simp
  | case7 eojeol byte next rest noSeparator noPair ih =>
    rw [cutFrom, if_neg noSeparator, if_neg noPair] at cut
    rw [ih cut]
    simp

theorem joined_cut {text : List UInt8} {pieces : List (List UInt8 × List UInt8)}
    (isCut : cut env text = some pieces) : joined pieces = text :=
  joined_cutFrom env isCut

variable {words : List (List UInt8)}

theorem highlightPieces_cons {eojeol separator : List UInt8}
    {rest : List (List UInt8 × List UInt8)} {out : List Letter} :
    highlightPieces env words ((eojeol, separator) :: rest) = some out ↔
      ∃ str more, highlightEojeol env words eojeol = some str ∧
        highlightPieces env words rest = some more ∧ out = str ++ plain separator ++ more := by
  rw [highlightPieces]
  constructor
  · intro ran
    split at ran
    · rename_i str more here later
      exact ⟨str, more, here, later, (Option.some.inj ran).symm⟩
    · cases ran
  · rintro ⟨str, more, here, later, rfl⟩
    rw [here, later]

theorem length_erase_eojeol_le {eojeol : List UInt8} {after : List Letter}
    (ran : highlightEojeol env words eojeol = some after) :
    (erase after).length ≤ eojeol.length := by
  rw [length_erase_highlightEojeol env ran, List.length_take]
  exact Nat.min_le_right _ _

theorem length_erase_pieces_le {pieces : List (List UInt8 × List UInt8)} {out : List Letter}
    (ran : highlightPieces env words pieces = some out) :
    (erase out).length ≤ (joined pieces).length := by
  induction pieces generalizing out with
  | nil =>
    cases ran
    exact Nat.le_refl _
  | cons piece rest ih =>
    obtain ⟨eojeol, separator⟩ := piece
    obtain ⟨str, more, here, later, rfl⟩ := (highlightPieces_cons env).mp ran
    have first := length_erase_eojeol_le env here
    have others := ih later
    simp only [joined, List.flatMap_cons, erase_append, erase_plain, List.length_append]
      at others ⊢
    omega

theorem highlightPieces_iff (pieces : List (List UInt8 × List UInt8)) :
    (∃ out, highlightPieces env words pieces = some out ∧ erase out = joined pieces) ↔
      ∀ piece ∈ pieces, ∃ after, highlightEojeol env words piece.1 = some after ∧
        erase after = piece.1 := by
  induction pieces with
  | nil => exact ⟨fun _ => List.forall_mem_nil _, fun _ => ⟨[], rfl, rfl⟩⟩
  | cons piece rest ih =>
    obtain ⟨eojeol, separator⟩ := piece
    rw [List.forall_mem_cons, ← ih]
    constructor
    · rintro ⟨out, ran, same⟩
      obtain ⟨str, more, here, later, rfl⟩ := (highlightPieces_cons env).mp ran
      have first := length_erase_eojeol_le env here
      have others := length_erase_pieces_le env later
      have split : erase str ++ (separator ++ erase more) =
          eojeol ++ (separator ++ joined rest) := by
        simpa [joined] using same
      have lengths := congrArg List.length split
      simp only [List.length_append] at lengths
      obtain ⟨sameFirst, sameRest⟩ := List.append_inj split (by omega)
      exact ⟨⟨str, here, sameFirst⟩, more, later, List.append_cancel_left sameRest⟩
    · rintro ⟨⟨str, here, sameFirst⟩, more, later, sameRest⟩
      simp only at sameFirst
      refine ⟨_, (highlightPieces_cons env).mpr ⟨str, more, here, later, rfl⟩, ?_⟩
      simp [joined, sameFirst] at sameRest ⊢
      exact sameRest

/-- The text of a field is large enough for what is made of it. -/
def Enough (words : List (List UInt8)) (text : List UInt8) : Prop :=
  ∀ pieces out, cut env text = some pieces → highlightPieces env words pieces = some out →
    out.length < maxFieldSize

theorem restored_iff {text : List UInt8} (enough : Enough env words text) :
    Restored env words text ↔
      words = [] ∨ ∃ pieces, cut env text = some pieces ∧
        ∀ piece ∈ pieces, ∃ after, highlightEojeol env words piece.1 = some after ∧
          erase after = piece.1 := by
  by_cases noWord : words = []
  · simp [Restored, highlight, noWord]
  · rw [or_iff_right noWord]
    simp only [Restored, highlight, if_neg noWord]
    cases isCut : cut env text with
    | none => simp
    | some pieces =>
      have pieced := @highlightPieces_iff env words pieces
      rw [joined_cut env isCut] at pieced
      simp only [Option.some.injEq, exists_eq_left', ← pieced]
      cases ran : highlightPieces env words pieces with
      | none => simp
      | some out =>
        have room := enough pieces out isCut ran
        simp [Nat.not_le.mpr room]

theorem highlightEojeol_nil {eojeol : List UInt8} (short : eojeol.length < stringSize) :
    highlightEojeol env [] eojeol = some (plain eojeol) := by
  simp only [highlightEojeol, plain_cut short]
  cases env.unit with
  | word => rfl
  | eojeol => rfl

end Texts

/-- The first words of the list, however many, leave the text as it is but for the
tags exactly when each of them does. -/
theorem highlight_restored_iff (env : Env) (words : List (List UInt8)) (text : List UInt8)
    (enough : ∀ count, Enough env (words.take count) text) :
    (∀ count, Restored env (words.take count) text) ↔ Kept env words text := by
  simp only [fun count => restored_iff env (enough count)]
  cases words with
  | nil => simp [Kept]
  | cons word words =>
    rw [Kept, or_iff_right (List.cons_ne_nil word words)]
    constructor
    · intro all
      obtain ⟨pieces, isCut, one⟩ :=
        (all 1).resolve_left (by rw [List.take_succ_cons]; exact List.cons_ne_nil _ _)
      refine ⟨pieces, isCut, fun piece member => ?_⟩
      apply (highlightEojeol_iff env _ _).mp
      intro count
      rcases all count with none | ⟨others, isCutToo, kept⟩
      · obtain ⟨after, ran, same⟩ := one piece member
        have short := short_of_erase env ran same
        rw [none]
        exact ⟨_, highlightEojeol_nil env short, erase_plain _⟩
      · obtain rfl := Option.some.inj (isCut.symm.trans isCutToo)
        exact kept piece member
    · rintro ⟨pieces, isCut, kept⟩ count
      exact .inr ⟨pieces, isCut, fun piece member =>
        (highlightEojeol_iff env _ _).mpr (kept piece member) count⟩

def ascii (text : String) : List UInt8 := text.toList.map fun char => char.toNat.toUInt8

def boldWords : Env where
  unit := .word
  preTag := ascii "<B>"
  postTag := ascii "</B>"
  seps1 := ascii " .,"
  seps2 := []
  isalpha := fun byte => decide (65 ≤ byte ∧ byte ≤ 90) || decide (97 ≤ byte ∧ byte ≤ 122)
  before := 0

theorem highlight_restored_pie :
    (∀ count, Enough boldWords ([ascii "pie"].take count) (ascii "apple pie")) ∧
      ((∀ count, Restored boldWords ([ascii "pie"].take count) (ascii "apple pie")) ↔
        Kept boldWords [ascii "pie"] (ascii "apple pie")) := by
  have enough : ∀ count, Enough boldWords ([ascii "pie"].take count) (ascii "apple pie") := by
    have isCut : cut boldWords (ascii "apple pie") =
        some [(ascii "apple", ascii " "), (ascii "pie", [])] := by decide +kernel
    intro count pieces out cutToo ran
    obtain rfl := Option.some.inj (isCut.symm.trans cutToo)
    have short : ∀ words, words = [] ∨ words = [ascii "pie"] →
        (highlightPieces boldWords words [(ascii "apple", ascii " "), (ascii "pie", [])]).all
          (fun out => decide (out.length < maxFieldSize)) = true := by
      rintro words (rfl | rfl) <;> decide +kernel
    have bounded := short ([ascii "pie"].take count) (by cases count <;> simp)
    rw [ran] at bounded
    simpa using bounded
  exact ⟨enough, highlight_restored_iff boldWords [ascii "pie"] (ascii "apple pie") enough⟩

/-- The capital letter of the text is lost. -/
theorem highlight_other_case :
    ¬ Restored boldWords [ascii "apple"] (ascii "Apple pie") := by
  rintro ⟨out, ran, same⟩
  have outIs : highlight boldWords [ascii "apple"] (ascii "Apple pie") =
      .success (tag (ascii "<B>") ++ plain (ascii "apple") ++ tag (ascii "</B>") ++
        plain (ascii " pie")) := by decide +kernel
  rw [outIs] at ran
  cases ran
  exact absurd same (by decide +kernel)

end Wisebot.Highlight
