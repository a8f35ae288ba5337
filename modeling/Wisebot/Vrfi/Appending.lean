import Wisebot.Vrfi.Records

namespace Wisebot.Vrfi

open Wisebot.Lib.Chunks

/-! The backward-linked list of headers of a key: `get_headers` walks it from the
newest header and keeps the wanted parts. -/

def HeaderHandle.Behind (handle : HeaderHandle) (pos : HeaderPos) : Prop :=
  pos.fileno < handle.lastHeaderFileIdx ∨
    pos.fileno = handle.lastHeaderFileIdx ∧ pos.position < handle.lastFileUsedByte

section Chains

variable {size : Nat} {headers grownHeaders : HeaderHandle} {files grownFiles : Nat → List UInt8}
  {key : Nat} {pos : HeaderPos}

structure Link (headers : HeaderHandle) (files : Nat → List UInt8) (key : Nat) (pos : HeaderPos)
    (headerData : HeaderData) (chunk : List (Element size)) : Prop where
  inTable : pos.fileno < maxVrfHeaderfile
  notDummy : ¬ (pos.fileno = 0 ∧ pos.position = 0)
  behind : headers.Behind pos
  isRead : headers.files pos.fileno pos.position = some headerData
  isKey : headerData.metadata.key = key
  stored : Stored files headerData.header chunk

def Chain (headers : HeaderHandle) (files : Nat → List UInt8) (key : Nat) :
    HeaderPos → List (List (Element size)) → Prop
  | pos, [] => pos = ⟨0, 0⟩
  | pos, chunk :: older => ∃ headerData, Link headers files key pos headerData chunk ∧
      Chain headers files key headerData.metadata.prev older

structure Grows (headers grown : HeaderHandle) : Prop where
  behind : ∀ pos, headers.Behind pos → grown.Behind pos
  kept : ∀ pos, headers.Behind pos →
    grown.files pos.fileno pos.position = headers.files pos.fileno pos.position

theorem Chain.mono {chunks : List (List (Element size))} (grows : Grows headers grownHeaders)
    (extended : Extends files grownFiles) (chain : Chain headers files key pos chunks) :
    Chain grownHeaders grownFiles key pos chunks := by
  induction chunks generalizing pos with
  | nil => exact chain
  | cons chunk older induction =>
    obtain ⟨headerData, link, rest⟩ := chain
    refine ⟨headerData, ⟨link.inTable, link.notDummy, grows.behind pos link.behind, ?_,
      link.isKey, link.stored.mono extended⟩, induction rest⟩
    rw [grows.kept pos link.behind]
    exact link.isRead

theorem Chain.length_le {chunks : List (List (Element size))}
    (chain : Chain headers files key pos chunks) : ∀ chunk ∈ chunks, chunk.length ≤ maxnelm := by
  induction chunks generalizing pos with
  | nil => simp
  | cons chunk older induction =>
    obtain ⟨headerData, link, rest⟩ := chain
    exact List.forall_mem_cons.mpr ⟨link.stored.small, induction rest⟩

theorem Chain.not_first {older : List (List (Element size))} {headerData : HeaderData}
    (chain : Chain headers files key headerData.metadata.prev older)
    (first : isFirstHeader headerData = true) : older = [] := by
  cases older with
  | nil => rfl
  | cons chunk older =>
    obtain ⟨_, link, _⟩ := chain
    exact absurd (by simpa [isFirstHeader] using first) link.notDummy

/-- The state of the walk: how much was skipped and taken so far, and that the
rest of the chain has what is left to take. -/
structure Walking (skip nelm limit skipped taken count : Nat) (rest : List (List (Element size))) :
    Prop where
  skippedLe : skipped ≤ skip
  takenLe : taken ≤ nelm
  room : count < limit ∨ taken = nelm
  left : skip - skipped + (nelm - taken) ≤ (joined rest).length
  counted : skipped + taken + (joined rest).length < 2 ^ 32

variable {skip nelm limit skipped taken count : Nat} {chunk : List (Element size)}
  {older : List (List (Element size))}

theorem Walking.skipChunk (walking : Walking skip nelm limit skipped taken count (chunk :: older))
    (skips : skipped + chunk.length ≤ skip) :
    Walking skip nelm limit (skipped + chunk.length) taken count older := by
  obtain ⟨_, takenLe, room, left, counted⟩ := walking
  rw [joined_cons, List.length_append] at left counted
  exact ⟨skips, takenLe, room, by omega, by omega⟩

theorem Walking.takeChunk (walking : Walking skip nelm limit skipped taken count (chunk :: older))
    (cuts : skip < skipped + chunk.length)
    (goesOn : ¬ (limit ≤ count + 1 ∧
      taken + min (nelm - taken) (chunk.length - (skip - skipped)) < nelm)) :
    Walking skip nelm limit skip (taken + min (nelm - taken) (chunk.length - (skip - skipped)))
      (count + 1) older := by
  obtain ⟨skippedLe, takenLe, room, left, counted⟩ := walking
  rw [joined_cons, List.length_append] at left counted
  exact ⟨le_rfl, by omega, by omega, by omega, by omega⟩

theorem getHeadersFrom_spec (sized : ElementSize size) {chunks : List (List (Element size))}
    {fuel : Nat} {read : List Header} (keyOf : Nat)
    (chain : Chain headers files key pos chunks) (enough : chunks.length < fuel)
    (walking : Walking skip nelm limit skipped taken read.length chunks) :
    ∃ parts, getHeadersFrom headers key skip nelm limit fuel skipped taken read ⟨keyOf, pos⟩ =
        some (some (read ++ parts, taken +
          (joined (pieces chunks (skip - skipped) (nelm - taken) (limit - read.length))).length)) ∧
      List.Forall₂ (Stored files) parts
        (pieces chunks (skip - skipped) (nelm - taken) (limit - read.length)) := by
  induction chunks generalizing pos fuel skipped taken read keyOf with
  | nil =>
    obtain ⟨fuel, rfl⟩ := Nat.exists_eq_add_of_lt enough
    have left : skip - skipped + (nelm - taken) ≤ 0 := walking.left
    refine ⟨[], ?_, ?_⟩
    · rw [List.append_nil, getHeadersFrom, if_pos (by omega)]
      rfl
    · exact .nil
  | cons chunk older induction =>
    obtain ⟨fuel, rfl⟩ := Nat.exists_eq_add_of_lt enough
    obtain ⟨headerData, link, rest⟩ := chain
    rw [List.length_cons] at enough
    have enoughFuel : older.length < (chunk :: older).length + fuel := by
      rw [List.length_cons]
      omega
    have nelm_eq := link.stored.nelm_eq
    have takenLe := walking.takenLe
    have skippedLe := walking.skippedLe
    have counted := walking.counted
    have room := walking.room
    rw [joined_cons, List.length_append] at counted
    rw [getHeadersFrom, pieces]
    by_cases done : nelm ≤ taken
    · rw [if_pos done, if_pos (Or.inl (by omega))]
      exact ⟨[], by simp, .nil⟩
    have isRead : readOneHeader headers ⟨keyOf, pos⟩ = some headerData := by
      rw [readOneHeader, if_neg (Nat.not_le.mpr link.inTable)]
      exact link.isRead
    have space : read.length < limit := by omega
    rw [if_neg done, if_neg (by omega : ¬ (nelm - taken = 0 ∨ limit - read.length = 0))]
    simp only [isRead, link.isKey, ne_eq, not_true_eq_false, if_false, nelm_eq]
    rw [w32_of_lt (by omega : skipped + chunk.length < 2 ^ 32)]
    by_cases skips : skipped + chunk.length ≤ skip
    · rw [if_pos skips, if_pos (by omega : chunk.length ≤ skip - skipped), Nat.sub_sub]
      exact induction _ rest enoughFuel (walking.skipChunk skips)
    · have takenLt : taken < nelm := Nat.lt_of_not_le done
      have part := link.stored.wantedPart sized skippedLe takenLt (by omega) (by omega)
      have partNelm := part.nelm_eq
      have sliceLength : (newestSlice chunk (skip - skipped)
          (min (nelm - taken) (chunk.length - (skip - skipped)))).length =
          min (nelm - taken) (chunk.length - (skip - skipped)) :=
        length_newestSlice (by omega)
      rw [sliceLength] at partNelm
      have isMax : max skipped skip = skip := Nat.max_eq_right skippedLe
      rw [if_neg skips, if_neg (by omega : ¬ chunk.length ≤ skip - skipped),
        if_neg (Nat.not_le.mpr space), partNelm, isMax, w32_of_lt (by omega), joined_cons]
      simp only [List.length_append, List.length_singleton, sliceLength]
      have older_left : nelm - taken - (chunk.length - (skip - skipped)) =
          nelm - (taken + min (nelm - taken) (chunk.length - (skip - skipped))) := by omega
      have less_room : limit - read.length - 1 = limit - (read.length + 1) := by omega
      rw [older_left, less_room]
      by_cases full : limit ≤ read.length + 1 ∧
          taken + min (nelm - taken) (chunk.length - (skip - skipped)) < nelm
      · have noRoom : limit - (read.length + 1) = 0 := by omega
        have noPieces : pieces older 0
            (nelm - (taken + min (nelm - taken) (chunk.length - (skip - skipped)))) 0 = [] := by
          cases older <;> simp [pieces]
        rw [if_pos full, noRoom, noPieces]
        exact ⟨[_], by simp, .cons part .nil⟩
      · have walkingOn := walking.takeChunk (Nat.lt_of_not_le skips) full
        have notFirst : ¬ (isFirstHeader headerData = true ∧
            taken + min (nelm - taken) (chunk.length - (skip - skipped)) < nelm) := by
          rintro ⟨first, less⟩
          have none := rest.not_first first
          have left := walkingOn.left
          rw [none, joined_nil, List.length_nil] at left
          omega
        rw [if_neg full, if_neg notFirst]
        have walkingNext : Walking skip nelm limit skip
            (taken + min (nelm - taken) (chunk.length - (skip - skipped)))
            (read ++ [wantedPart headerData.header skip nelm skipped taken]).length older := by
          rw [List.length_append, List.length_singleton]
          exact walkingOn
        obtain ⟨parts, ran, stored⟩ := induction _ rest enoughFuel walkingNext
        rw [List.length_append, List.length_singleton, Nat.sub_self] at ran stored
        refine ⟨_ :: parts, ?_, .cons part stored⟩
        refine ran.trans ?_
        rw [List.append_assoc, List.singleton_append]
        congr 3
        omega

end Chains

/-! `vrfi_appendvariable` puts a chunk in front of the chain of its key and leaves
all other chains as they are. -/

structure DataReady (size : Nat) (handle : DataHandle) : Prop where
  used_eq : (handle.files handle.lastDataFileIdx).length = handle.lastFileUsedByte
  aligned : size ∣ handle.lastFileUsedByte
  later : ∀ fileno, handle.lastDataFileIdx < fileno → handle.files fileno = []
  bounded : handle.lastFileUsedByte < 2 ^ 31

structure HeaderReady (handle : HeaderHandle) : Prop where
  bounded : handle.lastFileUsedByte ≤ headerfileSize
  dummy : handle.lastHeaderFileIdx = 0 → 0 < handle.lastFileUsedByte

section Data

variable {size : Nat} {handle after : DataHandle} {chunk : List (Element size)}
  {location : Location}

theorem overwrite_end (file data : List UInt8) :
    overwrite file file.length data = file ++ data := by
  simp [overwrite]

theorem DataReady.withRoom {bytes : Nat} (ready : DataReady size handle) (fits : bytes < 2 ^ 31) :
    DataReady size (handle.withRoom bytes) ∧ (handle.withRoom bytes).files = handle.files ∧
      (handle.withRoom bytes).lastFileUsedByte + bytes < 2 ^ 31 := by
  have bounded := ready.bounded
  rw [DataHandle.withRoom]
  split
  case isTrue full =>
    refine ⟨⟨?_, Nat.dvd_zero _, ?_, by simp⟩, rfl, by simpa using fits⟩
    · rw [ready.later _ (Nat.lt_succ_self _)]
      rfl
    · intro fileno later
      exact ready.later fileno ((Nat.lt_succ_self _).trans later)
  case isFalse room =>
    refine ⟨ready, rfl, ?_⟩
    rw [w32_of_lt (by omega), datafileSize] at room
    omega

theorem appendData_spec (sized : ElementSize size) (ready : DataReady size handle)
    (small : chunk.length ≤ maxnelm)
    (ran : appendData handle (w32 (chunk.length * size)) (bytesOf chunk) = some (after, location)) :
    DataReady size after ∧ Extends handle.files after.files ∧
      location.size = chunk.length * size ∧
      ∃ start, location.startbyte = start * size ∧ (start + chunk.length) * size < 2 ^ 31 ∧
        Stored after.files ⟨start, chunk.length, w8 location.fileno⟩ chunk := by
  have bytesFit : chunk.length * size < 2 ^ 31 :=
    (Nat.mul_le_mul_right size small).trans_lt sized.fits
  have isSize : w32 (chunk.length * size) = chunk.length * size := w32_of_lt (by omega)
  obtain ⟨readyRolled, sameFiles, fits⟩ := ready.withRoom bytesFit
  rw [appendData, isSize] at ran
  generalize handle.withRoom (chunk.length * size) = rolled at ran readyRolled sameFiles fits
  simp only [length_bytesOf, lt_irrefl, or_false] at ran
  split at ran
  case isTrue => cases ran
  case isFalse inTable =>
    rw [Option.some.injEq, Prod.mk.injEq] at ran
    obtain ⟨rfl, rfl⟩ := ran
    have whole : (bytesOf chunk).take (chunk.length * size) = bytesOf chunk :=
      List.take_of_length_le (length_bytesOf chunk).le
    have written : overwrite (rolled.files rolled.lastDataFileIdx) rolled.lastFileUsedByte
        (bytesOf chunk) = rolled.files rolled.lastDataFileIdx ++ bytesOf chunk := by
      rw [← readyRolled.used_eq]
      exact overwrite_end _ _
    obtain ⟨start, isStart⟩ := readyRolled.aligned
    rw [Nat.mul_comm] at isStart
    rw [Nat.not_le] at inTable
    have isFile : w8 (w16 rolled.lastDataFileIdx) = rolled.lastDataFileIdx := by
      rw [maxVrfDatafile] at inTable
      rw [w8, w16, Nat.mod_eq_of_lt (by omega : rolled.lastDataFileIdx < 2 ^ 16),
        Nat.mod_eq_of_lt (by omega)]
    rw [whole, written, w32_of_lt (by omega)]
    refine ⟨⟨?_, ?_, ?_, fits⟩, ?_, rfl, start, isStart, ?_, ?_⟩
    · simp only [Function.update_self, List.length_append, length_bytesOf, readyRolled.used_eq]
    · exact Nat.dvd_add readyRolled.aligned (Nat.dvd_mul_left size _)
    · intro fileno later
      exact (Function.update_of_ne (Nat.ne_of_gt later) _ _).trans (readyRolled.later fileno later)
    · intro fileno
      rw [← sameFiles]
      by_cases same : fileno = rolled.lastDataFileIdx
      · simp only [same, Function.update_self]
        exact List.prefix_append _ _
      · simp only [Function.update_of_ne same]
        exact List.prefix_rfl
    · rw [Nat.add_mul, ← isStart]
      exact fits
    · have used := readyRolled.used_eq
      rw [isStart] at used fits
      simp only [isFile]
      refine ⟨rfl, small, inTable, ?_, ?_, ?_⟩
      · simp only [Function.update_self, List.length_append, length_bytesOf, used, Nat.add_mul,
          le_refl]
      · simp only [Nat.add_mul]
        omega
      · simp only [Function.update_self]
        rw [List.drop_left' used]
        exact whole

theorem makeHeadersFromLocation_single {this : VariableRecordFile} {start : Nat}
    (sized : ElementSize size) (isSize : this.defaultVariableSize = size)
    (nonempty : 0 < chunk.length) (small : chunk.length ≤ maxnelm)
    (isStart : location.startbyte = start * size) (isBytes : location.size = chunk.length * size)
    (fits : (start + chunk.length) * size < 2 ^ 31) :
    makeHeadersFromLocation this location maxHeadersAtAppend =
      [⟨start, chunk.length, w8 location.fileno⟩] := by
  have sizePos := sized.pos
  have bytesPos : 0 < chunk.length * size := Nat.mul_pos nonempty sizePos
  have allFits := sized.fits
  have bytesLe : chunk.length * size ≤ maxnelm * size := Nat.mul_le_mul_right size small
  rw [Nat.add_mul] at fits
  rw [makeHeadersFromLocation, isSize, isStart, isBytes, w32_of_lt (by omega), maxHeadersAtAppend,
    makeHeadersFrom, if_neg (by omega), w32_of_lt (by omega), makeHeadersFrom, if_pos (by omega),
    Nat.add_sub_cancel_left, Nat.mul_div_cancel _ sizePos, Nat.mul_div_cancel _ sizePos,
    w16_of_le small, Nat.min_eq_left small]

end Data

section Headers

variable {handle after : HeaderHandle} {key : Nat} {lastpos newLastPos : HeaderPos}
  {header : Header} {ret : Ret}

theorem HeaderReady.withRoom (ready : HeaderReady handle) :
    ((handle.withRoom headerDataSize).lastHeaderFileIdx = 0 →
        0 < (handle.withRoom headerDataSize).lastFileUsedByte) ∧
      (handle.withRoom headerDataSize).files = handle.files ∧
      (handle.withRoom headerDataSize).lastFileUsedByte + headerDataSize ≤ headerfileSize ∧
      ∀ pos, handle.Behind pos → (handle.withRoom headerDataSize).Behind pos := by
  have bounded := ready.bounded
  rw [HeaderHandle.withRoom]
  split
  case isTrue full =>
    refine ⟨by simp, rfl, by simp [headerDataSize, headerfileSize], ?_⟩
    intro pos behind
    refine .inl ?_
    rcases behind with less | ⟨same, _⟩
    · exact Nat.lt_succ_of_lt less
    · exact Nat.lt_succ_of_le same.le
  case isFalse room =>
    refine ⟨ready.dummy, rfl, ?_, fun _ behind => behind⟩
    rw [headerfileSize] at bounded room ⊢
    rw [headerDataSize] at room ⊢
    rw [w32_of_lt (by omega)] at room
    omega

theorem appendHeaders_spec (ready : HeaderReady handle)
    (ran : appendHeaders handle key lastpos [header] = some (ret, after, newLastPos)) :
    ret = .success ∧ HeaderReady after ∧ Grows handle after ∧
      newLastPos.fileno < maxVrfHeaderfile ∧
      ¬ (newLastPos.fileno = 0 ∧ newLastPos.position = 0) ∧ after.Behind newLastPos ∧
      after.files newLastPos.fileno newLastPos.position = some ⟨header, key, lastpos⟩ := by
  obtain ⟨dummy, sameFiles, fits, behind⟩ := ready.withRoom
  have isSize : w32 (1 * headerDataSize) = headerDataSize := rfl
  rw [appendHeaders, List.length_singleton, if_neg (by decide), isSize] at ran
  generalize handle.withRoom headerDataSize = rolled at ran dummy sameFiles fits behind
  rw [headerfileSize, headerDataSize] at fits
  simp only at ran
  split at ran
  case isTrue => cases ran
  case isFalse inTable =>
    rw [Nat.not_le] at inTable
    simp only [Option.some.injEq, Prod.mk.injEq] at ran
    obtain ⟨rfl, rfl, rfl⟩ := ran
    have position : w32 (rolled.lastFileUsedByte + 1 * headerDataSize + (2 ^ 32 - headerDataSize)) =
        rolled.lastFileUsedByte := by
      rw [headerDataSize, w32]
      omega
    have isFile : w8 rolled.lastHeaderFileIdx = rolled.lastHeaderFileIdx := by
      rw [maxVrfHeaderfile] at inTable
      exact Nat.mod_eq_of_lt (by omega)
    have used : w32 (rolled.lastFileUsedByte + 1 * headerDataSize) =
        rolled.lastFileUsedByte + headerDataSize := by
      rw [headerDataSize]
      exact w32_of_lt (by omega)
    rw [position, isFile, used, linkHeaders, linkHeaders, writeHeaders, writeHeaders]
    refine ⟨rfl, ⟨?_, ?_⟩, ⟨?_, ?_⟩, inTable, ?_, ?_, ?_⟩
    · rw [headerfileSize, headerDataSize]
      exact fits
    · intro _
      exact Nat.add_pos_right _ (by decide)
    · intro pos old
      rcases behind pos old with less | ⟨same, less⟩
      · exact .inl less
      · exact .inr ⟨same, less.trans_le (Nat.le_add_right _ _)⟩
    · intro pos old
      simp only
      rw [← sameFiles]
      rcases behind pos old with less | ⟨same, less⟩
      · rw [Function.update_of_ne (Nat.ne_of_lt less)]
      · rw [same, Function.update_self, Function.update_of_ne (Nat.ne_of_lt less)]
    · rintro ⟨first, start⟩
      exact absurd start (Nat.ne_of_gt (dummy first))
    · exact .inr ⟨rfl, Nat.lt_add_of_pos_right (by decide)⟩
    · simp only [Function.update_self]

end Headers

/-- The files hold, for every key, the chunks appended to it, newest first. -/
structure Represents {size : Nat} (this : VariableRecordFile)
    (chunks : Nat → List (List (Element size))) : Prop where
  isSize : this.defaultVariableSize = size
  writable : this.readOnly = false
  data : DataReady size this.dataHandle
  headers : HeaderReady this.headerHandle
  ndata : ∀ key, (this.master key).ndata = w32 (joined (chunks key)).length
  chain : ∀ key, Chain this.headerHandle this.dataHandle.files key (this.master key).lastPos
    (chunks key)

theorem vrfiOpen_represents (size : Nat) :
    Represents (vrfiOpen size) (fun _ => ([] : List (List (Element size)))) where
  isSize := rfl
  writable := rfl
  data := ⟨rfl, Nat.dvd_zero _, fun _ _ => rfl, by simp [vrfiOpen]⟩
  headers := ⟨by simp [vrfiOpen, headerDataSize, headerfileSize], fun _ =>
    Nat.lt_of_sub_eq_succ rfl⟩
  ndata _ := rfl
  chain _ := rfl

section Records

variable {size : Nat} {this next : VariableRecordFile} {chunks : Nat → List (List (Element size))}

theorem Represents.append {key : Nat} {chunk : List (Element size)} (sized : ElementSize size)
    (represents : Represents this chunks) (nonempty : 0 < chunk.length)
    (small : chunk.length ≤ maxnelm)
    (ran : vrfiAppendvariable this key chunk.length (bytesOf chunk) = some (.success, next)) :
    Represents next (Function.update chunks key (chunk :: chunks key)) := by
  rw [vrfiAppendvariable, if_neg (by simp [represents.writable]), if_neg (by omega)] at ran
  cases appended : appendData this.dataHandle (w32 (chunk.length * this.defaultVariableSize))
      (bytesOf chunk) with
  | none => simp [appended] at ran
  | some written =>
    obtain ⟨dataHandle, location⟩ := written
    simp only [appended] at ran
    rw [represents.isSize] at appended
    obtain ⟨dataReady, extended, isBytes, start, isStart, fits, stored⟩ :=
      appendData_spec sized represents.data small appended
    have single : makeHeadersFromLocation { this with dataHandle := dataHandle } location
        maxHeadersAtAppend = [⟨start, chunk.length, w8 location.fileno⟩] :=
      makeHeadersFromLocation_single sized represents.isSize nonempty small isStart isBytes fits
    simp only [single] at ran
    cases inTable : getShmaddrWithKey { this with dataHandle := dataHandle } key with
    | none => simp [inTable] at ran
    | some master =>
      obtain rfl : this.master key = master := by
        rw [getShmaddrWithKey] at inTable
        split at inTable
        · cases inTable
        · exact Option.some.inj inTable
      simp only [inTable] at ran
      cases linked : appendHeaders this.headerHandle key (this.master key).lastPos
          [⟨start, chunk.length, w8 location.fileno⟩] with
      | none => simp [linked] at ran
      | some written =>
        obtain ⟨ret, headerHandle, newLastPos⟩ := written
        obtain ⟨rfl, headerReady, grows, inHeaders, notDummy, behind, isRead⟩ :=
          appendHeaders_spec represents.headers linked
        simp only [linked, Option.some.injEq, Prod.mk.injEq, true_and] at ran
        subst ran
        refine ⟨represents.isSize, represents.writable, dataReady, headerReady, ?_, ?_⟩
        · intro other
          by_cases same : other = key
          · subst same
            simp only [Function.update_self, joined_cons, List.length_append,
              represents.ndata other, w32]
            omega
          · simp only [Function.update_of_ne same]
            exact represents.ndata other
        · intro other
          have old := (represents.chain other).mono grows extended
          by_cases same : other = key
          · subst same
            simp only [Function.update_self]
            exact ⟨_, ⟨inHeaders, notDummy, behind, isRead, rfl, stored⟩, old⟩
          · simp only [Function.update_of_ne same]
            exact old

end Records

end Wisebot.Vrfi
