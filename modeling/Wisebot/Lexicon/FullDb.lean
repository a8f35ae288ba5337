import Wisebot.Hash.Capacity
import Wisebot.Lexicon.FailurePaths

namespace Wisebot.Lexicon

open Wisebot.Lib Wisebot.Hash

/-! A database filled with words of `MAX_WORD_LEN - 1` bytes until
`check_db_not_full` refuses one that is already in the index. -/

def longWordsPerBlock : Nat := 399999

/-- How many of them are registered before the last block counts as full. -/
def lastFitting : Nat := 253 * longWordsPerBlock + 399997

theorem lastFitting_eq : lastFitting = 101599744 := rfl

def longWord (index : Nat) : List UInt8 :=
  [index % 255 + 1, index / 255 % 255 + 1, index / 65025 % 255 + 1,
    index / 16581375 + 1].map UInt8.ofNat ++ List.replicate 35 1

def longWords (count : Nat) : List (List UInt8) :=
  (List.range count).map longWord

theorem length_longWord (index : Nat) : (longWord index).length = 39 := rfl

theorem longWord_nonzero {index : Nat} (bound : index ≤ lastFitting) :
    ∀ byte ∈ longWord index, byte ≠ 0 := by
  rw [lastFitting_eq] at bound
  have digit : ∀ value, 1 ≤ value → value < 256 → UInt8.ofNat value ≠ 0 := by
    intro value positive lower equal
    have back := congrArg UInt8.toNat equal
    rw [UInt8.toNat_ofNat_of_lt' lower] at back
    simp at back
    omega
  intro byte member
  simp only [longWord, List.map_cons, List.map_nil, List.cons_append,
    List.nil_append, List.mem_cons, List.mem_replicate] at member
  rcases member with rfl | rfl | rfl | rfl | ⟨_, rfl⟩
  · exact digit _ (by omega) (by omega)
  · exact digit _ (by omega) (by omega)
  · exact digit _ (by omega) (by omega)
  · exact digit _ (by omega) (by omega)
  · decide

theorem longWord_digits {index other : Nat} (bound : index ≤ lastFitting)
    (otherBound : other ≤ lastFitting) (same : longWord index = longWord other) :
    index = other := by
  rw [lastFitting_eq] at bound
  rw [lastFitting_eq] at otherBound
  simp only [longWord, List.map_cons, List.map_nil, List.cons_append,
    List.nil_append, List.cons.injEq, and_true] at same
  obtain ⟨first, second, third, fourth⟩ := same
  have digit : ∀ left right : Nat, left < 256 → right < 256 →
      UInt8.ofNat left = UInt8.ofNat right → left = right := by
    intro left right leftBound rightBound equal
    have back := congrArg UInt8.toNat equal
    rwa [UInt8.toNat_ofNat_of_lt' leftBound,
      UInt8.toNat_ofNat_of_lt' rightBound] at back
  have := digit _ _ (by omega) (by omega) first
  have := digit _ _ (by omega) (by omega) second
  have := digit _ _ (by omega) (by omega) third
  have := digit _ _ (by omega) (by omega) fourth
  omega

theorem cutWord_longWord {index : Nat} (bound : index ≤ lastFitting) :
    cutWord (longWord index) = longWord index := by
  have whole : (longWord index).takeWhile (· ≠ 0) = longWord index := by
    apply List.takeWhile_eq_self_iff.mpr
    intro byte member
    simpa using longWord_nonzero bound byte member
  unfold cutWord
  simp only [whole, length_longWord, maxWordLen]
  rfl

theorem length_longWords (count : Nat) : (longWords count).length = count := by
  simp [longWords]

theorem longWords_succ (count : Nat) :
    longWords (count + 1) = longWords count ++ [longWord count] := by
  simp [longWords, List.range_succ]

theorem getElem?_longWords (count : Nat) :
    (longWords (count + 1))[count]? = some (longWord count) := by
  have concat := longWords_succ count
  have last : (longWords count ++ [longWord count])[(longWords count).length]? =
      some (longWord count) := List.getElem?_concat_length
  rwa [← concat, length_longWords] at last

theorem longWord_fresh {count : Nat} (bound : count ≤ lastFitting) :
    longWord count ∉ longWords count := by
  intro member
  obtain ⟨index, inside, same⟩ := List.mem_map.mp member
  have lower := List.mem_range.mp inside
  have equal := longWord_digits (by omega) bound same
  omega

/-- Fewer than `hashSlotNum` of the words share the first 21 bits of their
digests. -/
def Spreads (md5 : List UInt8 → HashKey) : Prop :=
  ∀ bits, (longWords (lastFitting + 1)).countP
    (fun word => (md5 word).value / 2 ^ (32 - 21) = bits) < hashSlotNum

structure Filled (md5 : List UInt8 → HashKey) (db : WordDb) (count : Nat) :
    Prop where
  registered : Registered md5 db (longWords count)
  spacious : Spacious 21 db.hash
  alloc_eq : db.allocVariableBlockNum = (count - 1) / longWordsPerBlock + 1
  used : ∃ block,
    db.variableBlock (db.allocVariableBlockNum - 1) = some block ∧
    block.usedBytes = 40 * (count -
      longWordsPerBlock * (db.allocVariableBlockNum - 1))

section Filling

variable {md5 : List UInt8 → HashKey} {db : WordDb} {count : Nat}

theorem Indexed.spread {words : List (List UInt8)} (indexed : Indexed md5 db words)
    (bits limit : Nat) :
    (allSlots db.hash).countP
      (fun slot => slot.hashkey.value / 2 ^ (32 - limit) = bits) =
    words.countP (fun word => (md5 word).value / 2 ^ (32 - limit) = bits) := by
  rw [← indexed.strings_perm.countP_eq, List.countP_map]
  apply List.countP_congr
  intro slot member
  simp only [Function.comp_apply, indexed.hashed slot member]

theorem Spreads.countP_lt (spreads : Spreads md5) (bound : count ≤ lastFitting)
    (bits : Nat) :
    (longWords count).countP
      (fun word => (md5 word).value / 2 ^ (32 - 21) = bits) < hashSlotNum := by
  have sub : (longWords count).Sublist (longWords (lastFitting + 1)) :=
    (List.range_sublist.mpr (by omega)).map longWord
  exact (sub.countP_le ..).trans_lt (spreads bits)

theorem Filled.newVbOffset (filled : Filled md5 db count)
    (bound : count ≤ lastFitting) :
    ∃ placed wordOffset,
      Lexicon.newVbOffset allMapped db = (placed, some wordOffset) ∧
      wordOffset.blockIdx.toNat = count / longWordsPerBlock ∧
      wordOffset.offset.toNat = 40 * (count % longWordsPerBlock) := by
  have small : count ≤ 101599744 := bound
  have alloc := filled.alloc_eq
  have storage := filled.registered.indexed.storage
  obtain ⟨block, mapped, usedBytes⟩ := filled.used
  simp only [longWordsPerBlock] at alloc usedBytes
  have index : count / 399999 < 256 := by omega
  have offset : 40 * (count % 399999) < blockDataSize := by
    simp only [blockDataSize]
    omega
  obtain ⟨other, otherMapped, _, ⟨room, same⟩ | ⟨full, ⟨_, _, rolled⟩ |
    ⟨refused, _⟩⟩⟩ := newVbOffset_cases allMapped storage
  · obtain rfl := Option.some.inj (mapped.symm.trans otherMapped)
    simp only [blockDataSize, maxWordLen] at room
    have sameIndex : db.allocVariableBlockNum - 1 = count / 399999 := by omega
    have sameOffset : block.usedBytes = 40 * (count % 399999) := by omega
    rw [sameIndex, sameOffset] at same
    exact ⟨_, _, same, WordOffset.pack_blockIdx _ index,
      WordOffset.pack_offset _ offset⟩
  · obtain rfl := Option.some.inj (mapped.symm.trans otherMapped)
    simp only [blockDataSize, maxWordLen] at full
    have sameIndex : db.allocVariableBlockNum = count / 399999 := by omega
    have sameOffset : 0 = 40 * (count % 399999) := by omega
    refine ⟨_, _, rolled, ?_, ?_⟩
    · rw [WordOffset.pack_blockIdx _ (by omega), sameIndex]
      rfl
    · rw [WordOffset.pack_offset _ (by decide), sameOffset]
      rfl
  · obtain rfl := Option.some.inj (mapped.symm.trans otherMapped)
    simp only [blockDataSize, maxWordLen] at full
    rcases refused with atEnd | unmapped
    · simp only [maxBlockNum] at atEnd
      omega
    · cases unmapped

/-- The state in which the next word is in the index but has no record yet. -/
structure Unrecorded (md5 : List UInt8 → HashKey) (grown : WordDb) (count : Nat)
    (wordOffset : WordOffset) : Prop where
  indexed : Indexed md5 grown (longWords (count + 1))
  fixed : FixedInv grown (longWords count)
  spacious : Spacious 21 grown.hash
  stored : Stored grown wordOffset (longWord count)
  alloc_eq : grown.allocVariableBlockNum = count / longWordsPerBlock + 1
  used : ∃ block, grown.variableBlock (count / longWordsPerBlock) = some block ∧
    block.usedBytes = 40 * (count % longWordsPerBlock + 1)

theorem Filled.lexiconIndexPut (filled : Filled md5 db count)
    (spreads : Spreads md5) (bound : count ≤ lastFitting) :
    ∃ grown wordOffset,
      Lexicon.lexiconIndexPut md5 allMapped db (longWord count)
        (db.lastWordid + 1) = some (grown, .newRegistered wordOffset) ∧
      Unrecorded md5 grown count wordOffset := by
  have indexed := filled.registered.indexed
  have fixed := filled.registered.fixed
  have last := fixed.last
  rw [length_longWords] at last
  have short : (longWord count).length < maxWordLen := by
    rw [length_longWord]
    decide
  obtain ⟨placed, wordOffset, placing, index, offset⟩ := filled.newVbOffset bound
  obtain ⟨probed, written, probe, _⟩ := (newVbOffset_placed indexed.storage
    placing).variableWrite short (longWord_nonzero bound)
  have spread : ∀ bits, (allSlots db.hash).countP
      (fun slot => slot.hashkey.value / 2 ^ (32 - 21) = bits) < hashSlotNum := by
    intro bits
    rw [indexed.spread]
    exact spreads.countP_lt bound bits
  obtain ⟨hash, reply, added, spacious, accepted⟩ := hashAdd_accepts
    (hashCallbacks md5 allMapped probed) wordOffset (db.lastWordid + 1)
    (Nat.le_refl 21) (fun _ => rfl) filled.spacious spread
  have fresh := longWord_fresh bound
  rcases indexed.add_new probe short fresh added with rfl | ⟨rfl, inserted⟩
  · rcases accepted with bad | ⟨_, bad⟩ <;> cases bad
  · obtain ⟨grown, increased, grew⟩ := probe.increase short hash
    refine ⟨grown, wordOffset, ?_, ?_⟩
    · simp only [Lexicon.lexiconIndexPut, placing, written, probe.hash_eq, added,
        increased]
    · rw [last] at inserted
      have wordCount := length_longWords count
      refine ⟨?_, ?_, grew.hash_eq ▸ spacious, grew.stored, ?_, ?_⟩
      · rw [longWords_succ]
        exact indexed.grown probe short fresh (wordCount.symm ▸ inserted) grew
      · exact fixed.transfer grew.kept grew.lastWordid_eq grew.allocFixed_eq
          grew.fixedBlock_eq
      · rw [← grew.last, index]
      · obtain ⟨block, mapped, used⟩ := grew.used
        rw [index] at mapped
        rw [offset, length_longWord] at used
        exact ⟨block, mapped, by omega⟩

theorem Unrecorded.checkDbNotFull {grown : WordDb} {wordOffset : WordOffset}
    (unrecorded : Unrecorded md5 grown count wordOffset)
    (bound : count ≤ lastFitting) :
    checkDbNotFull grown = some (decide (count < lastFitting)) := by
  have small : count ≤ 101599744 := bound
  have fixedAlloc := unrecorded.fixed.alloc_eq
  rw [length_longWords, numWordsPerBlock_eq] at fixedAlloc
  have alloc := unrecorded.alloc_eq
  obtain ⟨block, mapped, used⟩ := unrecorded.used
  simp only [longWordsPerBlock] at alloc mapped used
  have fixedRoom : lastBlockFull grown.allocFixedBlockNum grown.fixedBlock
      (blockDataSize - internalWordSize * 3) = some false := by
    unfold lastBlockFull
    rw [if_neg (by simp only [maxBlockNum]; omega)]
  have variableRoom : lastBlockFull grown.allocVariableBlockNum
      grown.variableBlock (blockDataSize - maxWordLen * 3) =
        some (decide (lastFitting ≤ count)) := by
    unfold lastBlockFull
    by_cases atEnd : grown.allocVariableBlockNum = maxBlockNum
    · have index : count / 399999 = maxBlockNum - 1 := by omega
      rw [index] at mapped
      have reached : blockDataSize - maxWordLen * 3 < block.usedBytes ↔
          lastFitting ≤ count := by
        rw [used, lastFitting_eq]
        simp only [maxBlockNum] at index
        simp only [blockDataSize, maxWordLen]
        omega
      simp only [if_pos atEnd, mapped, reached]
    · have below : ¬ lastFitting ≤ count := by
        rw [lastFitting_eq]
        simp only [maxBlockNum] at atEnd
        omega
      rw [if_neg atEnd, decide_eq_false below]
  simp only [Lexicon.checkDbNotFull, fixedRoom, variableRoom]
  by_cases below : count < lastFitting
  · simp [below, Nat.not_le.mpr below]
  · simp [below, Nat.le_of_not_lt below]

theorem Filled.getNewWordid (filled : Filled md5 db count)
    (spreads : Spreads md5) (bound : count < lastFitting) :
    ∃ after, Lexicon.getNewWordid md5 allMapped db (longWord count) =
        some (after, .newRegistered (count + 1)) ∧
      Filled md5 after (count + 1) := by
  have small : count < 101599744 := bound
  obtain ⟨grown, wordOffset, put, unrecorded⟩ :=
    filled.lexiconIndexPut spreads bound.le
  have checked := unrecorded.checkDbNotFull bound.le
  rw [decide_eq_true bound] at checked
  have fixed := unrecorded.fixed
  have last := fixed.last
  rw [length_longWords] at last
  have within : grown.lastWordid / numWordsPerBlock < maxBlockNum := by
    rw [last, numWordsPerBlock_eq]
    simp only [maxBlockNum]
    omega
  obtain ⟨block, next⟩ : ∃ block, nextFixedBlock allMapped grown = some block := by
    unfold nextFixedBlock
    simp only [allMapped]
    cases grown.fixedBlock (grown.lastWordid / numWordsPerBlock) with
    | some block => exact ⟨block, rfl⟩
    | none => exact ⟨emptyFixedBlock, rfl⟩
  have placing := fixed.newFbOffset within allMapped
  rw [next] at placing
  simp only at placing
  have writing := fixedWrite_placeRecord within block wordOffset
  refine ⟨recordWord grown block wordOffset, ?_, ?_⟩
  · simp only [Lexicon.getNewWordid, cutWord_longWord bound.le, length_longWord,
      put, checked, placing, writing]
    rw [last]
    rfl
  · have recorded := fixed.recordWord within next unrecorded.stored
    rw [← longWords_succ] at recorded
    refine ⟨⟨unrecorded.indexed.recordWord block wordOffset, recorded⟩,
      unrecorded.spacious, unrecorded.alloc_eq, ?_⟩
    obtain ⟨last, mapped, used⟩ := unrecorded.used
    have alloc := unrecorded.alloc_eq
    refine ⟨last, ?_, ?_⟩
    · simp only [recordWord, alloc, Nat.add_sub_cancel]
      exact mapped
    · simp only [recordWord, alloc, Nat.add_sub_cancel, used]
      simp only [longWordsPerBlock]
      omega

theorem Filled.reports_failed (filled : Filled md5 db lastFitting)
    (spreads : Spreads md5) :
    ∃ after, Lexicon.getNewWordid md5 allMapped db (longWord lastFitting) =
        some (after, .fail) ∧
      Reported md5 after (longWord lastFitting) (lastFitting + 1) := by
  have atLast := Nat.le_refl lastFitting
  obtain ⟨grown, wordOffset, put, unrecorded⟩ :=
    filled.lexiconIndexPut spreads atLast
  have checked := unrecorded.checkDbNotFull atLast
  rw [decide_eq_false (Nat.lt_irrefl _)] at checked
  refine ⟨grown, ?_, allMapped, ?_⟩
  · simp only [Lexicon.getNewWordid, cutWord_longWord atLast, length_longWord,
      put, checked]
    rfl
  · have indexed := unrecorded.indexed
    have alloc := unrecorded.alloc_eq
    obtain ⟨block, mapped, used⟩ := unrecorded.used
    rw [lastFitting_eq] at alloc mapped used
    simp only [longWordsPerBlock] at alloc mapped used
    have short : (longWord lastFitting).length < maxWordLen := by
      rw [length_longWord]
      decide
    obtain ⟨other, otherMapped, _, ⟨_, same⟩ | ⟨full, _⟩⟩ :=
      newVbOffset_cases allMapped indexed.storage
    · obtain ⟨probed, written, probe, _⟩ := (newVbOffset_placed indexed.storage
        same).variableWrite short (longWord_nonzero atLast)
      have at_last := getElem?_longWords lastFitting
      have inProbed := indexed.probed probe
      obtain ⟨slot, member, equal, data⟩ :=
        indexed.present probe short at_last allMapped
      have searched := hashSearch_present
        (hashCallbacks_laws md5 allMapped probed) inProbed.formed
        (inProbed.keyed allMapped) member equal
      refine ⟨probed, ?_⟩
      simp only [getWordid, cutWord_longWord atLast, length_longWord,
        lexiconIndexGet, same, written, searched, data]
      rfl
    · rw [alloc] at otherMapped
      obtain rfl := Option.some.inj (mapped.symm.trans otherMapped)
      simp only [blockDataSize, maxWordLen] at full
      omega

theorem exists_filled (md5 : List UInt8 → HashKey) :
    ∃ start, openWordDb md5 allMapped = some start ∧ Filled md5 start 0 := by
  obtain ⟨start, opened⟩ : ∃ start, openWordDb md5 allMapped = some start :=
    ⟨_, rfl⟩
  have registered := openWordDb_registered opened
  obtain ⟨callbacks, hash, created, rfl⟩ := openWordDb_eq_some opened
  exact ⟨_, opened, registered, hashOpen_spacious created 21, rfl,
    { usedBytes := 0, data := fun _ => 0 }, rfl, rfl⟩

theorem exists_filled_run (spreads : Spreads md5) {start : WordDb}
    (filled : Filled md5 start 0) (bound : count ≤ lastFitting) :
    ∃ session, Reach (Session.step md5) (fun _ _ => True)
        { db := start, log := [] } session ∧
      Filled md5 session.db count ∧
      ∀ entry ∈ session.log, entry.1 ∈ longWords count := by
  induction count with
  | zero => exact ⟨_, .start, filled, by simp⟩
  | succ count induction =>
    obtain ⟨session, reached, filledSoFar, logged⟩ :=
      induction (Nat.le_of_succ_le bound)
    obtain ⟨after, ran, filledNext⟩ := filledSoFar.getNewWordid spreads bound
    have stepped : session.step md5 (allMapped, .getNewWordid (longWord count)) =
        some {
          db := after
          log := (cutWord (longWord count), .newRegistered (count + 1)) ::
            session.log } := by
      simp only [Session.step, ran]
    refine ⟨_, reached.step _ trivial stepped, filledNext, ?_⟩
    intro entry member
    rw [longWords_succ]
    rcases List.mem_cons.mp member with rfl | older
    · rw [cutWord_longWord (Nat.le_of_succ_le bound)]
      exact List.mem_append_right _ List.mem_cons_self
    · exact List.mem_append_left _ (logged entry older)

end Filling

def firstBytes (word : List UInt8) : HashKey :=
  ![word.getD 0 0, word.getD 1 0, word.getD 2 0, word.getD 3 0]

theorem firstBytes_longWord {index : Nat} (bound : index ≤ lastFitting) :
    (firstBytes (longWord index)).value / 2 ^ (32 - 21) =
      ((index % 255 + 1) * 256 + (index / 255 % 255 + 1)) * 32 +
        (index / 65025 % 255 + 1) / 8 := by
  rw [lastFitting_eq] at bound
  have byte : ∀ value : Nat, value < 256 → (UInt8.ofNat value).toNat = value :=
    fun value lower => UInt8.toNat_ofNat_of_lt' lower
  have value : (firstBytes (longWord index)).value =
      (((index % 255 + 1) * 256 + (index / 255 % 255 + 1)) * 256 +
        (index / 65025 % 255 + 1)) * 256 + (index / 16581375 + 1) := by
    have first := byte (index % 255 + 1) (by omega)
    have second := byte (index / 255 % 255 + 1) (by omega)
    have third := byte (index / 65025 % 255 + 1) (by omega)
    have fourth := byte (index / 16581375 + 1) (by omega)
    simp only [HashKey.value]
    rw [show (firstBytes (longWord index)).byte 0 =
        (UInt8.ofNat (index % 255 + 1)).toNat from rfl,
      show (firstBytes (longWord index)).byte 1 =
        (UInt8.ofNat (index / 255 % 255 + 1)).toNat from rfl,
      show (firstBytes (longWord index)).byte 2 =
        (UInt8.ofNat (index / 65025 % 255 + 1)).toNat from rfl,
      show (firstBytes (longWord index)).byte 3 =
        (UInt8.ofNat (index / 16581375 + 1)).toNat from rfl,
      first, second, third, fourth]
  rw [value]
  norm_num
  omega

theorem digits_sum (index : Nat) :
    index % 255 + 255 * (index / 255 % 255) + 65025 * (index / 65025 % 255) +
      16581375 * (index / 16581375) = index := by
  omega

theorem digits_code {first second third fourth first' second' third' fourth' : Nat}
    (secondBound : second < 255) (thirdBound : third < 255)
    (secondBound' : second' < 255) (thirdBound' : third' < 255)
    (bits : ((first + 1) * 256 + (second + 1)) * 32 + (third + 1) / 8 =
      ((first' + 1) * 256 + (second' + 1)) * 32 + (third' + 1) / 8)
    (code : (third + 1) % 8 + 8 * fourth = (third' + 1) % 8 + 8 * fourth') :
    first = first' ∧ second = second' ∧ third = third' ∧ fourth = fourth' := by
  omega

/-- Within one class of 21 bits a word is told from the others by three bits of
its third byte and by its fourth byte. -/
theorem firstBytes_spreads : Spreads firstBytes := by
  intro bits
  rw [longWords, List.countP_map, List.countP_eq_length_filter]
  generalize kept_eq : (List.range (lastFitting + 1)).filter
    ((fun word => decide ((firstBytes word).value / 2 ^ (32 - 21) = bits)) ∘
      longWord) = kept
  have nodup : kept.Nodup := by
    rw [← kept_eq]
    exact List.nodup_range.filter _
  have inside : ∀ index ∈ kept, index ≤ lastFitting ∧
      ((index % 255 + 1) * 256 + (index / 255 % 255 + 1)) * 32 +
        (index / 65025 % 255 + 1) / 8 = bits := by
    intro index member
    rw [← kept_eq] at member
    obtain ⟨bound, same⟩ := List.mem_filter.mp member
    have lower := Nat.lt_succ_iff.mp (List.mem_range.mp bound)
    simp only [Function.comp_apply, decide_eq_true_eq] at same
    rw [firstBytes_longWord lower] at same
    exact ⟨lower, same⟩
  have codes : (kept.map fun index =>
      (index / 65025 % 255 + 1) % 8 + 8 * (index / 16581375)).Nodup := by
    refine nodup.map_on ?_
    intro first firstIn second secondIn same
    obtain ⟨-, firstBits⟩ := inside first firstIn
    obtain ⟨-, secondBits⟩ := inside second secondIn
    rw [← digits_sum first, ← digits_sum second]
    have digits := fun value : Nat => Nat.mod_lt value (show 0 < 255 by decide)
    have equal := digits_code (digits (first / 255)) (digits (first / 65025))
      (digits (second / 255)) (digits (second / 65025))
      (firstBits.trans secondBits.symm) same
    rw [equal.1, equal.2.1, equal.2.2.1, equal.2.2.2]
  have covered : (kept.map fun index =>
      (index / 65025 % 255 + 1) % 8 + 8 * (index / 16581375)) ⊆
        List.range 56 := by
    intro code member
    obtain ⟨index, indexIn, rfl⟩ := List.mem_map.mp member
    obtain ⟨bound, -⟩ := inside index indexIn
    rw [lastFitting_eq] at bound
    have high : index / 16581375 ≤ 6 := by omega
    have low := Nat.mod_lt (index / 65025 % 255 + 1) (show 0 < 8 by decide)
    rw [List.mem_range]
    omega
  have few := (codes.subperm covered).length_le
  rw [List.length_map, List.length_range] at few
  exact Nat.lt_of_le_of_lt few (by decide)

/-- Whatever digest spreads the words, the first word the full database refuses
is reported as registered afterwards. -/
theorem full_db_reports_refused_word :
    (∀ md5, Spreads md5 → ¬ ∀ env start session,
      openWordDb md5 env = some start →
      Reach (Session.step md5) (fun _ _ => True)
        { db := start, log := [] } session → UniqueIds md5 session) ∧
      Spreads firstBytes := by
  refine ⟨fun md5 spreads claim => ?_, firstBytes_spreads⟩
  have atLast := Nat.le_refl lastFitting
  obtain ⟨start, opened, filled⟩ := exists_filled md5
  obtain ⟨session, reached, full, logged⟩ := exists_filled_run spreads filled atLast
  obtain ⟨after, ran, reported⟩ := full.reports_failed spreads
  have stepped : session.step md5
      (allMapped, .getNewWordid (longWord lastFitting)) = some {
        db := after
        log := (cutWord (longWord lastFitting), .fail) :: session.log } := by
    simp only [Session.step, ran]
  have unique := claim allMapped start _ opened (reached.step _ trivial stepped)
  have member := unique.registered _ _ reported
  rw [cutWord_longWord atLast] at member
  rcases List.mem_cons.mp member with same | older
  · cases same
  · exact longWord_fresh atLast (logged _ older)

end Wisebot.Lexicon
