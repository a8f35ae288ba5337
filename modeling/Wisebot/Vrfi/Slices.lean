import Wisebot.Vrfi.Appending

namespace Wisebot.Vrfi

open Wisebot.Lib.Chunks

/-! Whole runs: what `vrfi_getvariable` returns after any appends to any keys. -/

structure Call (size : Nat) where
  key : Nat
  elements : List (Element size)

def Call.append {size : Nat} (call : Call size) : Append :=
  ⟨call.key, call.elements.length, bytesOf call.elements⟩

def chunksOf {size : Nat} (calls : List (Call size)) (key : Nat) : List (List (Element size)) :=
  ((calls.filter fun call => call.key = key).map Call.elements).reverse

def sequence {size : Nat} (calls : List (Call size)) (key : Nat) : List (Element size) :=
  (calls.filter fun call => call.key = key).flatMap Call.elements

def Countable {size : Nat} (calls : List (Call size)) : Prop :=
  ∀ call ∈ calls, 0 < call.elements.length ∧ call.elements.length ≤ maxnelm

def answer {size : Nat} (elements : List (Element size)) (skip count : Nat) : Int × List UInt8 :=
  (count, bytesOf (newestSlice elements skip count))

section Runs

variable {size : Nat} {this final : VariableRecordFile} {calls : List (Call size)}
  {chunks : Nat → List (List (Element size))}

theorem joined_chunksOf (calls : List (Call size)) (key : Nat) :
    joined (chunksOf calls key) = sequence calls key := by
  rw [joined, chunksOf, List.reverse_reverse, sequence, List.flatMap_def]

theorem chunksOf_cons (call : Call size) (calls : List (Call size)) (key : Nat) :
    chunksOf (call :: calls) key =
      chunksOf calls key ++ if call.key = key then [call.elements] else [] := by
  rw [chunksOf, List.filter_cons]
  by_cases same : call.key = key
  · simp [same, chunksOf]
  · simp [same, chunksOf]

theorem chunksOf_replicate (count : Nat) (call : Call size) :
    chunksOf (List.replicate count call) call.key = List.replicate count call.elements := by
  rw [chunksOf, List.filter_replicate_of_pos (by simp), List.map_replicate, List.reverse_replicate]

theorem length_chunksOf_le (calls : List (Call size)) (key : Nat) :
    (chunksOf calls key).length ≤ calls.length := by
  rw [chunksOf, List.length_reverse, List.length_map]
  exact List.length_filter_le _ _

theorem runAppends_represents (sized : ElementSize size) (represents : Represents this chunks)
    (countable : Countable calls)
    (ran : runAppends this (calls.map Call.append) = some final) :
    Represents final fun key => chunksOf calls key ++ chunks key := by
  induction calls generalizing this chunks with
  | nil =>
    cases ran
    exact represents
  | cons call calls induction =>
    obtain ⟨⟨nonempty, small⟩, rest⟩ := List.forall_mem_cons.mp countable
    rw [List.map_cons, runAppends] at ran
    split at ran
    case h_1 next appended =>
      have step := represents.append sized nonempty small appended
      have whole := induction step rest ran
      have same : (fun key => chunksOf (call :: calls) key ++ chunks key) = fun key =>
          chunksOf calls key ++ Function.update chunks call.key
            (call.elements :: chunks call.key) key := by
        funext key
        rw [chunksOf_cons, List.append_assoc]
        by_cases isKey : call.key = key
        · subst isKey
          simp
        · rw [if_neg isKey, Function.update_of_ne (Ne.symm isKey), List.nil_append]
      rw [same]
      exact whole
    case h_2 => cases ran

theorem getShmaddrWithKey_of_lt (this : VariableRecordFile) {key : Nat}
    (inTable : key < maxVrfShmNum * numOfEachBundledKeys) :
    getShmaddrWithKey this key = some (this.master key) := by
  rw [getShmaddrWithKey, if_neg]
  rw [Nat.not_le]
  exact Nat.div_lt_of_lt_mul (by rwa [Nat.mul_comm] at inTable)

theorem Represents.read {key skip nelm fuel : Nat} (sized : ElementSize size)
    (represents : Represents this chunks) (inTable : key < maxVrfShmNum * numOfEachBundledKeys)
    (counted : (joined (chunks key)).length < 2 ^ 32) (noOverflow : skip + nelm < 2 ^ 32)
    (within : skip < (joined (chunks key)).length ∨ skip = 0)
    (enough : (chunks key).length < fuel) :
    vrfiGetvariable fuel this key skip nelm =
      some (answer (joined (chunks key)) skip
        (min (min nelm ((joined (chunks key)).length - skip))
          (reach (chunks key) skip maxHeaderAtRead))) := by
  have isNdata : (this.master key).ndata = (joined (chunks key)).length := by
    rw [represents.ndata key]
    exact w32_of_lt counted
  have isAddr := getShmaddrWithKey_of_lt this inTable
  have isNelm : (if (joined (chunks key)).length < w32 (skip + nelm) then
      (joined (chunks key)).length - skip else nelm) =
      min nelm ((joined (chunks key)).length - skip) := by
    rw [w32_of_lt noOverflow]
    split <;> omega
  generalize wanted_eq : min nelm ((joined (chunks key)).length - skip) = wanted at isNelm ⊢
  have fits : skip + wanted ≤ (joined (chunks key)).length := by omega
  have walking : Walking skip wanted maxHeaderAtRead 0 0 ([] : List Header).length
      (chunks key) :=
    ⟨Nat.zero_le _, Nat.zero_le _, .inl (by decide), by simpa using fits, by simpa using counted⟩
  obtain ⟨parts, walked, stored⟩ :=
    getHeadersFrom_spec sized key (represents.chain key) enough walking
  simp only [List.length_nil, Nat.sub_zero, List.nil_append, Nat.zero_add] at walked stored
  have isJoined := joined_pieces (chunks key) maxHeaderAtRead fits
  have reachFits := reach_add_le (chunks key) maxHeaderAtRead (Nat.le_of_add_right_le fits)
  have isCount : (joined (pieces (chunks key) skip wanted maxHeaderAtRead)).length =
      min wanted (reach (chunks key) skip maxHeaderAtRead) := by
    rw [isJoined]
    exact length_newestSlice (by omega)
  rw [isCount] at walked
  have small := reach_le (represents.chain key).length_le skip maxHeaderAtRead
  have few : parts.length ≤ maxLocationAtRead := by
    rw [stored.length_eq]
    exact length_pieces_le _ _ _ _
  have isLocations : makeLocationsFromHeaders this parts maxLocationAtRead =
      (parts.reverse).map (locationOf size) := by
    rw [makeLocationsFromHeaders, List.take_of_length_le few, represents.isSize, List.map_reverse]
    rfl
  have data : getData this.dataHandle ((parts.reverse).map (locationOf size)) =
      some (some (bytesOf (newestSlice (joined (chunks key)) skip
        (min wanted (reach (chunks key) skip maxHeaderAtRead))))) := by
    rw [getData_stored this.dataHandle (List.forall₂_reverse_iff.mpr stored), List.map_reverse,
      bytesOf_joined, isJoined]
  have isInt : toInt32 (min wanted (reach (chunks key) skip maxHeaderAtRead)) =
      ((min wanted (reach (chunks key) skip maxHeaderAtRead) : Nat) : Int) := by
    have bound : maxHeaderAtRead * maxnelm < 2 ^ 31 := by decide
    rw [toInt32, if_pos (by omega)]
  rw [vrfiGetvariable]
  simp only [isAddr, isNdata]
  rw [if_neg (by omega), isNelm, getHeaders]
  simp only [walked, isLocations, data, isInt, answer]

/-- After any appends a read returns the wanted elements if they are in few
enough chunks, else the newest of them, as far as the limit reaches. -/
theorem runAppends_slices {key skip nelm fuel : Nat} (sized : ElementSize size)
    (countable : Countable calls)
    (ran : runAppends (vrfiOpen size) (calls.map Call.append) = some final)
    (inTable : key < maxVrfShmNum * numOfEachBundledKeys)
    (counted : (sequence calls key).length < 2 ^ 32) (noOverflow : skip + nelm < 2 ^ 32)
    (within : skip < (sequence calls key).length ∨ skip = 0) (enough : calls.length < fuel) :
    (needed (chunksOf calls key) skip (min nelm ((sequence calls key).length - skip)) ≤
        maxHeaderAtRead →
      vrfiGetvariable fuel final key skip nelm = some (answer (sequence calls key) skip
        (min nelm ((sequence calls key).length - skip)))) ∧
    (maxHeaderAtRead <
        needed (chunksOf calls key) skip (min nelm ((sequence calls key).length - skip)) →
      reach (chunksOf calls key) skip maxHeaderAtRead <
          min nelm ((sequence calls key).length - skip) ∧
        vrfiGetvariable fuel final key skip nelm = some (answer (sequence calls key) skip
          (reach (chunksOf calls key) skip maxHeaderAtRead))) := by
  have represents := runAppends_represents sized (vrfiOpen_represents size) countable ran
  simp only [List.append_nil] at represents
  rw [← joined_chunksOf] at counted within ⊢
  have read := represents.read sized inTable counted noOverflow within
    ((length_chunksOf_le calls key).trans_lt enough)
  have fits : skip + min nelm ((joined (chunksOf calls key)).length - skip) ≤
      (joined (chunksOf calls key)).length := by omega
  have isNeeded := needed_le_iff (chunksOf calls key) maxHeaderAtRead fits
  constructor
  · intro few
    rw [read, Nat.min_eq_left (isNeeded.mp few)]
  · intro many
    have beyond : reach (chunksOf calls key) skip maxHeaderAtRead <
        min nelm ((joined (chunksOf calls key)).length - skip) := by
      rw [← Nat.not_le, ← isNeeded]
      exact Nat.not_le.mpr many
    rw [read, Nat.min_eq_right beyond.le]
    exact ⟨beyond, rfl⟩

def alternating : List (Call 1) :=
  [⟨1, [#v[10], #v[11]]⟩, ⟨2, [#v[20]]⟩, ⟨1, [#v[12], #v[13]]⟩]

theorem runAppends_slices_alternating :
    ∃ final, runAppends (vrfiOpen 1) (alternating.map Call.append) = some final ∧
      vrfiGetvariable 4 final 1 1 2 = some (2, [11, 12]) := by
  have someRan : (runAppends (vrfiOpen 1) (alternating.map Call.append)).isSome := by decide
  obtain ⟨final, ran⟩ := Option.isSome_iff_exists.mp someRan
  refine ⟨final, ran, ?_⟩
  have countable : Countable alternating := by
    simp [Countable, alternating, maxnelm]
  exact (runAppends_slices ⟨by decide, by decide⟩ countable ran (by decide) (by decide)
    (by decide) (.inl (by decide)) (by decide)).1 (by decide)

end Runs

section Counter

variable {size : Nat} {this : VariableRecordFile} {chunks : Nat → List (List (Element size))}

theorem Represents.append_success {key : Nat} {chunk : List (Element size)}
    (sized : ElementSize size) (represents : Represents this chunks) (nonempty : 0 < chunk.length)
    (small : chunk.length ≤ maxnelm) (inTable : key < maxVrfShmNum * numOfEachBundledKeys)
    (dataRoom : (this.dataHandle.withRoom (chunk.length * size)).lastDataFileIdx < maxVrfDatafile)
    (headerRoom : (this.headerHandle.withRoom headerDataSize).lastHeaderFileIdx <
      maxVrfHeaderfile) :
    ∃ next, vrfiAppendvariable this key chunk.length (bytesOf chunk) = some (.success, next) ∧
      next.dataHandle.lastDataFileIdx =
        (this.dataHandle.withRoom (chunk.length * size)).lastDataFileIdx ∧
      next.dataHandle.lastFileUsedByte =
        (this.dataHandle.withRoom (chunk.length * size)).lastFileUsedByte + chunk.length * size ∧
      next.headerHandle.lastHeaderFileIdx =
        (this.headerHandle.withRoom headerDataSize).lastHeaderFileIdx ∧
      next.headerHandle.lastFileUsedByte =
        (this.headerHandle.withRoom headerDataSize).lastFileUsedByte + headerDataSize := by
  have bytesFit : chunk.length * size < 2 ^ 31 :=
    (Nat.mul_le_mul_right size small).trans_lt sized.fits
  have isSize : w32 (chunk.length * size) = chunk.length * size := w32_of_lt (by omega)
  obtain ⟨_, _, dataFits⟩ := represents.data.withRoom bytesFit
  obtain ⟨_, _, headerFits, _⟩ := represents.headers.withRoom
  have isAddr := fun other => getShmaddrWithKey_of_lt other inTable
  obtain ⟨dataHandle, location, appended, isIdx, isUsed⟩ : ∃ dataHandle location,
      appendData this.dataHandle (w32 (chunk.length * size)) (bytesOf chunk) =
        some (dataHandle, location) ∧
      dataHandle.lastDataFileIdx =
        (this.dataHandle.withRoom (chunk.length * size)).lastDataFileIdx ∧
      dataHandle.lastFileUsedByte =
        (this.dataHandle.withRoom (chunk.length * size)).lastFileUsedByte + chunk.length * size := by
    rw [appendData, isSize]
    simp only [length_bytesOf, lt_irrefl, or_false, if_neg (Nat.not_le.mpr dataRoom)]
    exact ⟨_, _, rfl, rfl, w32_of_lt (by omega)⟩
  obtain ⟨_, _, isBytes, start, isStart, fits, _⟩ :=
    appendData_spec sized represents.data small appended
  have single : makeHeadersFromLocation { this with dataHandle := dataHandle } location
      maxHeadersAtAppend = [⟨start, chunk.length, w8 location.fileno⟩] :=
    makeHeadersFromLocation_single sized represents.isSize nonempty small isStart isBytes fits
  have headerSize : w32 (1 * headerDataSize) = headerDataSize := rfl
  rw [headerfileSize] at headerFits
  have linked : ∃ headerHandle newLastPos, appendHeaders this.headerHandle key
        (this.master key).lastPos [⟨start, chunk.length, w8 location.fileno⟩] =
        some (.success, headerHandle, newLastPos) ∧
      headerHandle.lastHeaderFileIdx =
        (this.headerHandle.withRoom headerDataSize).lastHeaderFileIdx ∧
      headerHandle.lastFileUsedByte =
        (this.headerHandle.withRoom headerDataSize).lastFileUsedByte + headerDataSize := by
    rw [appendHeaders, List.length_singleton, if_neg (by decide), headerSize]
    simp only [if_neg (Nat.not_le.mpr headerRoom)]
    exact ⟨_, _, rfl, rfl, w32_of_lt (by omega)⟩
  obtain ⟨headerHandle, newLastPos, isLinked, isHeaderIdx, isHeaderUsed⟩ := linked
  rw [vrfiAppendvariable, if_neg (by simp [represents.writable]), if_neg (by omega)]
  have appendedHere : appendData this.dataHandle (w32 (chunk.length * this.defaultVariableSize))
      (bytesOf chunk) = some (dataHandle, location) := by
    rw [represents.isSize]
    exact appended
  simp only [appendedHere, single, isAddr, isLinked]
  exact ⟨_, rfl, isIdx, isUsed, isHeaderIdx, isHeaderUsed⟩

/-- The files after some appends of as many one-byte elements as a header counts. -/
structure Filling (this : VariableRecordFile) (appends : Nat) : Prop where
  data : this.dataHandle.lastDataFileIdx * (datafileSize - maxnelm) +
    this.dataHandle.lastFileUsedByte ≤ appends * maxnelm
  headerIdx : this.headerHandle.lastHeaderFileIdx = 0
  headerUsed : this.headerHandle.lastFileUsedByte = (appends + 1) * headerDataSize

/-- An append of as many one-byte elements as a header counts. -/
def fullCall : Call 1 := ⟨1, List.replicate maxnelm #v[0]⟩

theorem fullCall_length : fullCall.elements.length = maxnelm := List.length_replicate

theorem Filling.step {chunks : Nat → List (List (Element 1))} {appends : Nat}
    (filling : Filling this appends) (represents : Represents this chunks)
    (few : appends < 2 ^ 16 + 2) :
    ∃ next, vrfiAppendvariable this 1 fullCall.elements.length (bytesOf fullCall.elements) =
        some (.success, next) ∧
      Filling next (appends + 1) := by
  have sized : ElementSize 1 := ⟨by decide, by decide⟩
  have data := filling.data
  have used := filling.headerUsed
  have bounded := represents.data.bounded
  simp only [datafileSize, maxnelm] at data
  rw [headerDataSize] at used
  have dataNext : (this.dataHandle.withRoom (fullCall.elements.length * 1)).lastDataFileIdx *
        (datafileSize - maxnelm) +
        (this.dataHandle.withRoom (fullCall.elements.length * 1)).lastFileUsedByte ≤
        appends * maxnelm ∧
      (this.dataHandle.withRoom (fullCall.elements.length * 1)).lastDataFileIdx < 32 := by
    have noWrap : w32 (this.dataHandle.lastFileUsedByte + maxnelm * 1) =
        this.dataHandle.lastFileUsedByte + maxnelm * 1 := by
      refine w32_of_lt ?_
      rw [maxnelm]
      omega
    rw [fullCall_length, DataHandle.withRoom, noWrap]
    by_cases full : this.dataHandle.lastFileUsedByte + maxnelm * 1 > datafileSize
    · rw [if_pos full]
      simp only [datafileSize, maxnelm] at full ⊢
      omega
    · rw [if_neg full]
      simp only [datafileSize, maxnelm]
      omega
  have sameHeaders : this.headerHandle.withRoom headerDataSize = this.headerHandle := by
    rw [HeaderHandle.withRoom, if_neg]
    rw [used, headerDataSize, headerfileSize, w32_of_lt (by omega)]
    omega
  obtain ⟨next, ran, isIdx, isUsed, isHeaderIdx, isHeaderUsed⟩ :=
    represents.append_success sized (by rw [fullCall_length]; decide) fullCall_length.le
      (by decide : 1 < maxVrfShmNum * numOfEachBundledKeys) dataNext.2
      (by rw [sameHeaders, filling.headerIdx]; decide)
  refine ⟨next, ran, ?_, ?_, ?_⟩
  · rw [isIdx, isUsed]
    have enough := dataNext.1
    rw [fullCall_length] at enough ⊢
    rw [Nat.add_mul]
    omega
  · rw [isHeaderIdx, sameHeaders, filling.headerIdx]
  · rw [isHeaderUsed, sameHeaders, used, headerDataSize]
    omega

theorem fullCall_countable (count : Nat) : Countable (List.replicate count fullCall) := by
  intro call member
  rw [List.eq_of_mem_replicate member, fullCall_length]
  decide

theorem Filling.run {chunks : Nat → List (List (Element 1))} {appends : Nat} (count : Nat)
    (filling : Filling this appends) (represents : Represents this chunks)
    (few : appends + count ≤ 2 ^ 16 + 2) :
    ∃ final, runAppends this ((List.replicate count fullCall).map Call.append) = some final := by
  induction count generalizing this chunks appends with
  | zero => exact ⟨this, rfl⟩
  | succ count induction =>
    obtain ⟨next, appended, filled⟩ := filling.step represents (by omega)
    have nextRepresents := represents.append ⟨by decide, by decide⟩
      (by rw [fullCall_length]; decide) fullCall_length.le appended
    obtain ⟨final, ran⟩ := induction filled nextRepresents (by omega)
    refine ⟨final, ?_⟩
    rw [List.replicate_succ, List.map_cons, runAppends]
    simp only [Call.append]
    simp only [fullCall] at appended ⊢
    rw [appended]
    exact ran

theorem Link.getHeaders {headers : HeaderHandle} {files : Nat → List UInt8} {key nelm fuel : Nat}
    {pos : HeaderPos} {headerData : HeaderData} {chunk : List (Element size)}
    {result : Option (List Header × Nat)} (link : Link headers files key pos headerData chunk)
    (positive : 0 < nelm) (fewer : nelm < chunk.length)
    (ran : getHeaders fuel headers ⟨key, pos⟩ 0 nelm maxHeaderAtRead = some result) :
    result = some ([headerData.header.trimStart nelm], nelm) := by
  have small := link.stored.small
  have isNelm : headerData.header.nelm = chunk.length := link.stored.nelm_eq
  rw [maxnelm] at small
  have isRead : readOneHeader headers ⟨key, pos⟩ = some headerData := by
    rw [readOneHeader, if_neg (Nat.not_le.mpr link.inTable)]
    exact link.isRead
  have part : wantedPart headerData.header 0 nelm 0 0 = headerData.header.trimStart nelm := by
    simp only [wantedPart, lt_irrefl, false_and, if_false, isNelm, Nat.zero_add,
      w32_of_lt (by omega : chunk.length < 2 ^ 32), gt_iff_lt, if_pos fewer, Nat.sub_zero]
  have taken : w32 (0 + (headerData.header.trimStart nelm).nelm) = nelm := by
    simp only [Header.trimStart, w16, w32]
    omega
  have notWhole : ¬ w32 (0 + headerData.header.nelm) ≤ 0 := by
    rw [isNelm, w32_of_lt (by omega)]
    omega
  rw [Vrfi.getHeaders] at ran
  cases fuel with
  | zero => cases ran
  | succ fuel =>
    rw [getHeadersFrom, if_neg (by omega)] at ran
    simp only [isRead, link.isKey, ne_eq, not_true_eq_false, if_false, if_neg notWhole, part,
      taken, lt_irrefl, and_false, List.length_nil, maxHeaderAtRead] at ran
    cases fuel with
    | zero => cases ran
    | succ fuel =>
      rw [getHeadersFrom, if_pos le_rfl] at ran
      exact (Option.some.inj ran).symm

/-- A key whose count has wrapped around to less than the newest chunk does not
give all of that chunk. -/
theorem Represents.read_wrapped {key fuel : Nat} {chunk : List (Element size)}
    {older : List (List (Element size))} {result : Int × List UInt8}
    (represents : Represents this chunks) (isChunks : chunks key = chunk :: older)
    (inTable : key < maxVrfShmNum * numOfEachBundledKeys)
    (wrapped : (this.master key).ndata < chunk.length) (counts : 0 < (this.master key).ndata)
    (ran : vrfiGetvariable fuel this key 0 chunk.length = some result) :
    result.1 ≠ chunk.length := by
  have chain := represents.chain key
  rw [isChunks] at chain
  obtain ⟨headerData, link, _⟩ := chain
  have small := link.stored.small
  rw [maxnelm] at small
  rw [vrfiGetvariable, getShmaddrWithKey_of_lt this inTable] at ran
  simp only [Nat.zero_add, w32_of_lt (by omega : chunk.length < 2 ^ 32), ne_eq, not_true_eq_false,
    false_and, and_false, if_false, if_pos wrapped, Nat.sub_zero] at ran
  split at ran
  case h_1 => cases ran
  case h_2 =>
    cases ran
    exact fun same => by omega
  case h_3 headers read walked =>
    cases link.getHeaders counts wrapped walked
    have fewer : toInt32 (this.master key).ndata ≠ chunk.length := by
      rw [toInt32, if_pos (by omega)]
      omega
    split at ran
    case h_1 => cases ran
    case h_2 =>
      cases ran
      exact fun same => by omega
    case h_3 =>
      cases ran
      exact fewer

/-- After 65538 appends of 65535 one-byte elements the count has wrapped around,
and the newest 65535 elements are not all returned. -/
theorem wrapped_count_loses_element :
    ¬ ∀ (calls : List (Call 1)) (final : VariableRecordFile) (key skip nelm fuel : Nat),
      Countable calls →
      runAppends (vrfiOpen 1) (calls.map Call.append) = some final →
      key < maxVrfShmNum * numOfEachBundledKeys → skip + nelm < 2 ^ 32 →
      (skip < (sequence calls key).length ∨ skip = 0) → calls.length < fuel →
      needed (chunksOf calls key) skip (min nelm ((sequence calls key).length - skip)) ≤
        maxHeaderAtRead →
      vrfiGetvariable fuel final key skip nelm = some (answer (sequence calls key) skip
        (min nelm ((sequence calls key).length - skip))) := by
  intro claim
  have start : Filling (vrfiOpen 1) 0 := ⟨by simp [vrfiOpen], rfl, by simp [vrfiOpen]⟩
  obtain ⟨final, ran⟩ := start.run 65538 (vrfiOpen_represents 1) (by omega)
  have countable := fullCall_countable 65538
  have represents :=
    runAppends_represents ⟨by decide, by decide⟩ (vrfiOpen_represents 1) countable ran
  simp only [List.append_nil] at represents
  have isChunks : chunksOf (List.replicate 65538 fullCall) 1 =
      fullCall.elements :: List.replicate 65537 fullCall.elements :=
    (chunksOf_replicate 65538 fullCall).trans List.replicate_succ
  have isLength : (sequence (List.replicate 65538 fullCall) 1).length = 65538 * maxnelm := by
    rw [← joined_chunksOf, isChunks, joined_cons, joined, List.reverse_replicate, List.length_append,
      List.length_flatten, List.map_replicate, List.sum_replicate_nat, fullCall_length]
    decide
  have isNdata : (final.master 1).ndata = 65534 := by
    rw [represents.ndata 1, joined_chunksOf, isLength]
    decide
  have wanted : min maxnelm ((sequence (List.replicate 65538 fullCall) 1).length - 0) =
      fullCall.elements.length := by
    rw [isLength, fullCall_length]
    decide
  have few : needed (chunksOf (List.replicate 65538 fullCall) 1) 0 fullCall.elements.length ≤
      maxHeaderAtRead := by
    rw [isChunks, needed, fullCall_length, if_neg (by decide), if_neg (by decide), Nat.sub_zero,
      Nat.sub_self, needed_zero]
    decide
  have read := claim _ final 1 0 maxnelm 65539 countable ran (by decide) (by decide) (.inr rfl)
    (by rw [List.length_replicate]; decide)
  rw [wanted] at read
  have lost := represents.read_wrapped isChunks (by decide) (by rw [isNdata, fullCall_length]; decide)
    (by rw [isNdata]; decide) (by rw [fullCall_length]; exact read few)
  exact lost rfl

end Counter

end Wisebot.Vrfi
