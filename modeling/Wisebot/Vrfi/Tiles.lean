import Wisebot.Vrfi.Slices

namespace Wisebot.Vrfi

open Wisebot.Lib.Chunks

/-! The headers of an append follow each other through its elements, as long as one
header can count them all. -/

/-- Headers that take up elements one after the other, each at least one. -/
def Tiles : List Header → (start count : Nat) → Prop
  | [], _, count => count = 0
  | header :: headers, start, count =>
    header.start = start ∧ 0 < header.nelm ∧ header.nelm ≤ count ∧
      Tiles headers (start + header.nelm) (count - header.nelm)

/-- No elements, or as many as one header counts, at a place from where the loop does
not wrap around. -/
def FitsOneHeader (this : VariableRecordFile) (location : Location) : Prop :=
  location.size = 0 ∨
    location.startbyte + location.size < 2 ^ 32 ∧
      location.size / this.defaultVariableSize ≤ maxnelm ∧
      location.startbyte + location.size ≤
        w32 (location.startbyte + maxnelm * this.defaultVariableSize)

def headerChain (handle : HeaderHandle) (key : Nat) : (fuel : Nat) → HeaderPos → Option (List Header)
  | 0, _ => none
  | fuel + 1, pos =>
    if pos.fileno = 0 ∧ pos.position = 0 then some []
    else
      (readOneHeader handle ⟨key, pos⟩).bind fun headerData =>
        (headerChain handle key fuel headerData.metadata.prev).map fun headers =>
          headerData.header :: headers

section Locations

variable {size fileno start count endbyte : Nat}

theorem Tiles.nil_of_zero {headers : List Header} (tiles : Tiles headers start 0) :
    headers = [] := by
  cases headers with
  | nil => rfl
  | cons header headers =>
    obtain ⟨-, some, none, -⟩ := tiles
    omega

theorem makeHeadersFrom_cons (fuel : Nat) (positive : 0 < size) (some : 0 < count)
    (isEnd : endbyte = (start + count) * size) :
    makeHeadersFrom size fileno endbyte (fuel + 1) (start * size) =
      ⟨start, w16 count, w8 fileno⟩ ::
        makeHeadersFrom size fileno endbyte fuel (w32 (start * size + maxnelm * size)) := by
  have bytes : 0 < count * size := Nat.mul_pos some positive
  have clipped : w16 count ≤ maxnelm := Nat.le_of_lt_succ (Nat.mod_lt count (by decide))
  rw [Nat.add_mul] at isEnd
  rw [makeHeadersFrom, if_neg (by omega), isEnd, Nat.add_sub_cancel_left,
    Nat.mul_div_cancel _ positive, Nat.mul_div_cancel _ positive, Nat.min_eq_left clipped]

theorem makeHeadersFrom_nil {fuel startbyte : Nat} (done : endbyte ≤ startbyte) :
    makeHeadersFrom size fileno endbyte fuel startbyte = [] := by
  cases fuel with
  | zero => rfl
  | succ fuel => rw [makeHeadersFrom, if_pos done]

/-- More elements than a header counts: it has the wrapped count, and if that is the
largest one, the next header has none. -/
theorem not_tiles_of_many {fuel : Nat} (positive : 0 < size) (many : maxnelm < count)
    (isEnd : endbyte = (start + count) * size) (fits : endbyte < 2 ^ 32) :
    ¬ Tiles (makeHeadersFrom size fileno endbyte (fuel + 2) (start * size)) start count := by
  intro tiles
  rw [makeHeadersFrom_cons (fuel + 1) positive (by omega) isEnd] at tiles
  obtain ⟨-, -, -, tiles⟩ := tiles
  have inside : start * size + maxnelm * size < endbyte := by
    rw [isEnd, ← Nat.add_mul]
    exact Nat.mul_lt_mul_of_pos_right (by omega) positive
  rw [w32_of_lt (by omega), ← Nat.add_mul, makeHeadersFrom_cons fuel positive
    (Nat.sub_pos_of_lt many) (by rw [isEnd, Nat.add_assoc, Nat.add_sub_of_le many.le])] at tiles
  obtain ⟨next, some, -, -⟩ := tiles
  dsimp only at next some
  simp only [w16, maxnelm] at *
  omega

theorem tiles_of_few {fuel : Nat} (positive : 0 < size) (some : 0 < count) (few : count ≤ maxnelm)
    (isEnd : endbyte = (start + count) * size) :
    Tiles (makeHeadersFrom size fileno endbyte (fuel + 2) (start * size)) start count ↔
      endbyte ≤ w32 (start * size + maxnelm * size) := by
  rw [makeHeadersFrom_cons (fuel + 1) positive some isEnd, w16_of_le few]
  constructor
  · rintro ⟨-, -, -, tiles⟩
    dsimp only at tiles
    rw [Nat.sub_self] at tiles
    have none := tiles.nil_of_zero
    by_contra more
    rw [makeHeadersFrom, if_neg more] at none
    cases none
  · intro done
    rw [makeHeadersFrom_nil done]
    exact ⟨rfl, some, le_rfl, Nat.sub_self count⟩

end Locations

theorem makeHeadersFromLocation_tiles_iff {this : VariableRecordFile} {location : Location}
    (startFits : location.startbyte < 2 ^ 32) (sizeFits : location.size < 2 ^ 32)
    (startWhole : this.defaultVariableSize ∣ location.startbyte)
    (sizeWhole : this.defaultVariableSize ∣ location.size) :
    Tiles (makeHeadersFromLocation this location maxHeadersAtAppend)
        (location.startbyte / this.defaultVariableSize)
        (location.size / this.defaultVariableSize) ↔
      FitsOneHeader this location := by
  rw [makeHeadersFromLocation]
  rcases Nat.eq_zero_or_pos location.size with none | someBytes
  · rw [none, Nat.add_zero, w32_of_lt startFits, makeHeadersFrom_nil le_rfl, Nat.zero_div]
    exact ⟨fun _ => .inl none, fun _ => rfl⟩
  have positive : 0 < this.defaultVariableSize := Nat.pos_of_dvd_of_pos sizeWhole someBytes
  obtain ⟨start, isStart⟩ := startWhole
  obtain ⟨count, isSize⟩ := sizeWhole
  rw [Nat.mul_comm] at isStart isSize
  have some : 0 < count := by
    rcases Nat.eq_zero_or_pos count with rfl | some
    · omega
    · exact some
  rw [FitsOneHeader, isStart, isSize, Nat.mul_div_cancel _ positive,
    Nat.mul_div_cancel _ positive, ← Nat.add_mul]
  rcases Nat.lt_or_ge ((start + count) * this.defaultVariableSize) (2 ^ 32) with fits | wraps
  · rw [w32_of_lt fits]
    rcases Nat.lt_or_ge maxnelm count with many | few
    · refine iff_of_false (not_tiles_of_many positive many rfl fits) ?_
      rintro (none | ⟨-, few, -⟩)
      · omega
      · omega
    · rw [show maxHeadersAtAppend = 8 + 2 from rfl, tiles_of_few positive some few rfl]
      constructor
      · exact fun done => .inr ⟨fits, few, done⟩
      · rintro (none | ⟨-, -, done⟩)
        · omega
        · exact done
  · have before : w32 ((start + count) * this.defaultVariableSize) ≤
        start * this.defaultVariableSize := by
      rw [Nat.add_mul] at wraps ⊢
      rw [w32]
      omega
    rw [makeHeadersFrom_nil before]
    refine iff_of_false (Nat.ne_of_gt some) ?_
    rintro (none | ⟨fits, -⟩)
    · omega
    · omega

section Chains

variable {size : Nat} {this final : VariableRecordFile} {chunks : Nat → List (List (Element size))}

theorem Chain.headerChain {headers : HeaderHandle} {files : Nat → List UInt8} {key fuel : Nat}
    {pos : HeaderPos} {parts : List (List (Element size))} (chain : Chain headers files key pos parts)
    (enough : parts.length < fuel) :
    ∃ found, headerChain headers key fuel pos = some found ∧
      found.map Header.nelm = parts.map List.length := by
  induction parts generalizing pos fuel with
  | nil =>
    obtain ⟨fuel, rfl⟩ := Nat.exists_eq_add_of_le' enough
    obtain rfl : pos = ⟨0, 0⟩ := chain
    exact ⟨[], if_pos ⟨rfl, rfl⟩, rfl⟩
  | cons part older induction =>
    obtain ⟨headerData, link, rest⟩ := chain
    obtain ⟨fuel, rfl⟩ : ∃ less, fuel = less + 1 := ⟨fuel - 1, by
      rw [List.length_cons] at enough
      omega⟩
    obtain ⟨found, isFound, same⟩ := induction rest (Nat.lt_of_succ_lt_succ enough)
    have isRead : readOneHeader headers ⟨key, pos⟩ = some headerData := by
      rw [readOneHeader, if_neg (Nat.not_le.mpr link.inTable)]
      exact link.isRead
    refine ⟨headerData.header :: found, ?_, ?_⟩
    · rw [Vrfi.headerChain, if_neg link.notDummy, isRead]
      simp only [Option.bind_some, isFound, Option.map_some]
    · rw [List.map_cons, List.map_cons, same, link.stored.nelm_eq]

theorem sequence_cons (call : Call size) (calls : List (Call size)) (key : Nat) :
    sequence (call :: calls) key =
      (if call.key = key then call.elements else []) ++ sequence calls key := by
  rw [sequence, sequence, List.filter_cons]
  by_cases same : call.key = key
  · simp [same]
  · simp [same]

theorem runAppends_chunks (sized : ElementSize size) {calls : List (Call size)}
    (represents : Represents this chunks)
    (small : ∀ call ∈ calls, call.elements.length ≤ maxnelm)
    (ran : runAppends this (calls.map Call.append) = some final) :
    ∃ after, Represents final after ∧ ∀ key,
      joined (after key) = joined (chunks key) ++ sequence calls key ∧
        (after key).length ≤ (chunks key).length + calls.length := by
  induction calls generalizing this chunks with
  | nil =>
    cases ran
    exact ⟨chunks, represents, fun key => ⟨(List.append_nil _).symm, le_rfl⟩⟩
  | cons call calls induction =>
    obtain ⟨callSmall, restSmall⟩ := List.forall_mem_cons.mp small
    rw [List.map_cons, runAppends] at ran
    split at ran
    case h_2 => cases ran
    case h_1 next appended =>
      have appended : vrfiAppendvariable this call.key call.elements.length
          (bytesOf call.elements) = some (.success, next) := appended
      rcases Nat.eq_zero_or_pos call.elements.length with none | some
      · rw [vrfiAppendvariable, if_neg (by simp [represents.writable]), if_pos none] at appended
        cases appended
        obtain ⟨after, isAfter, same⟩ := induction represents restSmall ran
        refine ⟨after, isAfter, fun key => ⟨?_, ?_⟩⟩
        · rw [(same key).1, sequence_cons, List.eq_nil_of_length_eq_zero none]
          simp
        · exact (same key).2.trans (Nat.add_le_add_left (Nat.le_succ _) _)
      · obtain ⟨after, isAfter, same⟩ :=
          induction (represents.append sized some callSmall appended) restSmall ran
        refine ⟨after, isAfter, fun key => ?_⟩
        obtain ⟨isJoined, few⟩ := same key
        rw [isJoined, sequence_cons]
        rcases eq_or_ne key call.key with rfl | different
        · rw [Function.update_self] at few ⊢
          rw [if_pos rfl, joined_cons, List.append_assoc]
          rw [List.length_cons] at few ⊢
          exact ⟨rfl, by omega⟩
        · rw [Function.update_of_ne different] at few ⊢
          rw [if_neg different.symm, List.nil_append, List.length_cons]
          exact ⟨rfl, by omega⟩

theorem Represents.ndata_eq_sum (represents : Represents this chunks) {key fuel : Nat}
    (counted : (joined (chunks key)).length < 2 ^ 32) (enough : (chunks key).length < fuel) :
    ∃ headers, headerChain this.headerHandle key fuel (this.master key).lastPos = some headers ∧
      (this.master key).ndata = (headers.map Header.nelm).sum := by
  obtain ⟨headers, isChain, same⟩ := (represents.chain key).headerChain enough
  refine ⟨headers, isChain, ?_⟩
  rw [represents.ndata key, w32_of_lt counted, same, joined, List.length_flatten, List.map_reverse,
    List.sum_reverse]

end Chains

/-- The headers of any location tile it exactly when one header is enough, and after any
appends for which this is so the stored count of a key is the sum over its headers. -/
theorem headers_tile_iff (this : VariableRecordFile) (location : Location) (size : Nat)
    (calls : List (Call size)) (final : VariableRecordFile) (key : Nat) :
    (location.startbyte < 2 ^ 32 → location.size < 2 ^ 32 →
      this.defaultVariableSize ∣ location.startbyte →
      this.defaultVariableSize ∣ location.size →
      (Tiles (makeHeadersFromLocation this location maxHeadersAtAppend)
          (location.startbyte / this.defaultVariableSize)
          (location.size / this.defaultVariableSize) ↔
        FitsOneHeader this location)) ∧
    (ElementSize size → (∀ call ∈ calls, call.elements.length ≤ maxnelm) →
      runAppends (vrfiOpen size) (calls.map Call.append) = some final →
      (sequence calls key).length < 2 ^ 32 →
      ∃ headers, headerChain final.headerHandle key (calls.length + 1)
          (final.master key).lastPos = some headers ∧
        (final.master key).ndata = (headers.map Header.nelm).sum) := by
  refine ⟨fun startFits sizeFits startWhole sizeWhole =>
    makeHeadersFromLocation_tiles_iff startFits sizeFits startWhole sizeWhole, ?_⟩
  intro sized small ran counted
  obtain ⟨chunks, represents, same⟩ := runAppends_chunks sized (vrfiOpen_represents size) small ran
  obtain ⟨isJoined, few⟩ := same key
  refine represents.ndata_eq_sum ?_ ?_
  · rw [isJoined]
    exact counted
  · exact Nat.lt_succ_of_le (few.trans (Nat.zero_add _).le)

theorem headers_tile_iff_alternating :
    Tiles (makeHeadersFromLocation (vrfiOpen 4) ⟨40, 262140, 3⟩ maxHeadersAtAppend) 10 65535 ∧
      ∃ final headers, runAppends (vrfiOpen 1) (alternating.map Call.append) = some final ∧
        headerChain final.headerHandle 1 4 (final.master 1).lastPos = some headers ∧
        (final.master 1).ndata = (headers.map Header.nelm).sum := by
  have someRan : (runAppends (vrfiOpen 1) (alternating.map Call.append)).isSome := by decide
  obtain ⟨final, ran⟩ := Option.isSome_iff_exists.mp someRan
  have holds := headers_tile_iff (vrfiOpen 4) ⟨40, 262140, 3⟩ 1 alternating final 1
  constructor
  · exact (holds.1 (by decide) (by decide) (by decide) (by decide)).mpr
      (.inr ⟨by decide, by decide, by decide⟩)
  · obtain ⟨headers, isChain, isSum⟩ :=
      holds.2 ⟨by decide, by decide⟩ (by simp [alternating, maxnelm]) ran (by decide)
    exact ⟨final, headers, ran, isChain, isSum⟩

/-- One element more than a header counts gives a header without elements in front. -/
theorem wrapped_count_leaves_empty_header :
    ¬ ∀ (this : VariableRecordFile) (location : Location), location.startbyte < 2 ^ 32 →
      location.size < 2 ^ 32 → this.defaultVariableSize ∣ location.startbyte →
      this.defaultVariableSize ∣ location.size →
      location.size / this.defaultVariableSize ≤ maxHeadersAtAppend * maxnelm →
      Tiles (makeHeadersFromLocation this location maxHeadersAtAppend)
        (location.startbyte / this.defaultVariableSize)
        (location.size / this.defaultVariableSize) := by
  intro claim
  have tiles := claim (vrfiOpen 1) ⟨0, 65536, 0⟩ (by decide) (by decide) (Nat.dvd_zero _)
    (Nat.one_dvd _) (by decide)
  have some : 0 < w16 65536 := tiles.2.1
  exact absurd some (by decide)

end Wisebot.Vrfi
