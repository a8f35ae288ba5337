import Wisebot.Frm.Blocks

namespace Wisebot.Frm

open Wisebot.Lib

/-! What is added is read again, in every process. -/

def Fits (size key : Nat) : Prop :=
  currBlock size key < maxBlockNum ∧ offset size key + size ≤ blockSize

instance (size key : Nat) : Decidable (Fits size key) := inferInstanceAs (Decidable (_ ∧ _))

/-- No `mmap` fails. -/
def System.Maps (system : System) : Prop := ∀ index, system.maps index = true

section Handles

variable {headerBlock : Nat} {system : System}

/-- A process has the blocks mapped that it counts, and counts none that the file does
not have. -/
structure Process.Sound (headerBlock : Nat) (process : Process) (allocated : Int) : Prop where
  counted : -1 ≤ process.allocatedBlocks
  behind : process.allocatedBlocks ≤ allocated
  mapped : ∀ index : Nat, (index : Int) ≤ process.allocatedBlocks →
    process.block index = some (blockStart headerBlock index)

theorem newProcess_sound {allocated : Int} (positive : 0 ≤ allocated) :
    newProcess.Sound headerBlock allocated where
  counted := le_refl _
  behind := by
    show (-1 : Int) ≤ allocated
    omega
  mapped := by
    intro index isCounted
    have none : (index : Int) ≤ -1 := isCounted
    omega

theorem Process.Sound.mono {process : Process} {allocated more : Int}
    (sound : process.Sound headerBlock allocated) (later : allocated ≤ more) :
    process.Sound headerBlock more :=
  ⟨sound.counted, sound.behind.trans later, sound.mapped⟩

/-- The count of the file is that of a block of the table. -/
structure Shared.InTable (shared : Shared) : Prop where
  positive : 0 ≤ shared.allocatedBlocks
  bound : shared.allocatedBlocks < maxBlockNum

structure Handle.Sound (headerBlock : Nat) (handle : Handle) : Prop where
  inTable : handle.shared.InTable
  process : handle.process.Sound headerBlock handle.shared.allocatedBlocks

/-- What a call may do to the file without `frm_add` writing its record: it counts more
blocks, and in the blocks that were there all bytes stay. -/
structure Shared.Grows (headerBlock : Nat) (before after : Shared) : Prop where
  allocated : before.allocatedBlocks ≤ after.allocatedBlocks
  file : ∀ address : Nat,
    (address : Int) < headerBlock + (before.allocatedBlocks + 1) * blockSize →
      after.file address = before.file address

theorem Shared.Grows.refl (shared : Shared) : shared.Grows headerBlock shared :=
  ⟨le_refl _, fun _ _ => rfl⟩

theorem Shared.Grows.trans {first second third : Shared} (one : first.Grows headerBlock second)
    (two : second.Grows headerBlock third) : first.Grows headerBlock third where
  allocated := one.allocated.trans two.allocated
  file := by
    intro address inBlocks
    rw [two.file address, one.file address inBlocks]
    have more := one.allocated
    have isSize : (blockSize : Int) = 1048576 := rfl
    rw [isSize] at inBlocks ⊢
    omega

theorem mapBlocks_spec (maps : system.Maps) (rounds : Nat) {handle : Handle}
    (sound : handle.process.Sound headerBlock handle.shared.allocatedBlocks)
    (enough : handle.process.allocatedBlocks + rounds = handle.shared.allocatedBlocks)
    (bound : handle.shared.allocatedBlocks < maxBlockNum) :
    ∃ after, mapBlocks headerBlock system rounds handle = some (true, after) ∧
      after.shared = handle.shared ∧
      after.process.allocatedBlocks = handle.shared.allocatedBlocks ∧
      after.process.Sound headerBlock handle.shared.allocatedBlocks := by
  induction rounds generalizing handle with
  | zero => exact ⟨handle, rfl, rfl, by omega, sound⟩
  | succ rounds induction =>
    have counted := sound.counted
    have inTable : (handle.process.allocatedBlocks + 1).toNat < maxBlockNum := by omega
    rw [mapBlocks, if_pos (maps _), if_pos inTable]
    refine induction ⟨?_, ?_, ?_⟩ ?_ bound
    · show -1 ≤ handle.process.allocatedBlocks + 1
      omega
    · show handle.process.allocatedBlocks + 1 ≤ handle.shared.allocatedBlocks
      omega
    · intro index isCounted
      have within : (index : Int) ≤ handle.process.allocatedBlocks + 1 := isCounted
      by_cases isLast : index = (handle.process.allocatedBlocks + 1).toNat
      · rw [isLast]
        exact Function.update_self ..
      · rw [← sound.mapped index (by omega)]
        exact Function.update_of_ne isLast _ _
    · show handle.process.allocatedBlocks + 1 + rounds = handle.shared.allocatedBlocks
      omega

theorem extendFile_grows (headerBlock : Nat) (system : System) {handle : Handle}
    (isCount : 0 ≤ handle.shared.allocatedBlocks) :
    handle.shared.Grows headerBlock (extendFile headerBlock system handle).2.shared ∧
      (extendFile headerBlock system handle).2.shared.allocatedBlocks =
        handle.shared.allocatedBlocks ∧
      (extendFile headerBlock system handle).2.process = handle.process ∧
      (extendFile headerBlock system handle).1 = system.lengthens := by
  cases isLong : system.lengthens with
  | false =>
    have ran : extendFile headerBlock system handle = (false, handle) :=
      if_neg (by rw [isLong]; exact Bool.false_ne_true)
    rw [ran]
    exact ⟨.refl _, rfl, rfl, rfl⟩
  | true =>
    have ran : extendFile headerBlock system handle =
        (true, handle.writeFile
          (blockStart headerBlock (handle.shared.allocatedBlocks + 1).toNat) [0]) := if_pos isLong
    rw [ran]
    have sameCount := handle.writeFile_allocatedBlocks
      (blockStart headerBlock (handle.shared.allocatedBlocks + 1).toNat) [0]
    refine ⟨⟨sameCount.ge, ?_⟩, sameCount, handle.writeFile_process _ _, rfl⟩
    intro address inBlocks
    have isSize : blockSize = 1048576 := rfl
    rw [isSize] at inBlocks
    have isBelow :
        address < blockStart headerBlock (handle.shared.allocatedBlocks + 1).toNat := by
      rw [blockStart, isSize]
      omega
    exact Mem.write_apply_outside (.inl isBelow)

/-- What a call has done to its handle before the record is looked at. -/
structure Caught (headerBlock : Nat) (system : System) (before : Handle) (ok : Bool)
    (after : Handle) : Prop where
  sound : after.Sound headerBlock
  grows : before.shared.Grows headerBlock after.shared
  caughtUp : ok = true → after.process.allocatedBlocks = after.shared.allocatedBlocks
  works : system.lengthens = true → ok = true

theorem mapMissing_spec (maps : system.Maps) {handle : Handle}
    (sound : handle.Sound headerBlock) :
    ∃ ok after, mapMissing headerBlock system handle = some (ok, after) ∧
      Caught headerBlock system handle ok after ∧
      after.shared.allocatedBlocks = handle.shared.allocatedBlocks := by
  rw [mapMissing]
  split
  case isTrue missing =>
    obtain ⟨grows, sameCount, sameProcess, isLong⟩ :=
      extendFile_grows headerBlock system sound.inTable.positive
    split
    case isTrue extended =>
      have counted := sound.process.counted
      have extendedSound : (extendFile headerBlock system handle).2.process.Sound headerBlock
          (extendFile headerBlock system handle).2.shared.allocatedBlocks := by
        rw [sameCount, sameProcess]
        exact sound.process
      obtain ⟨after, mapped, sameShared, count, afterSound⟩ := mapBlocks_spec maps
        ((extendFile headerBlock system handle).2.shared.allocatedBlocks -
          (extendFile headerBlock system handle).2.process.allocatedBlocks).toNat extendedSound
        (by rw [sameCount, sameProcess]; omega)
        (by rw [sameCount]; exact sound.inTable.bound)
      refine ⟨true, after, mapped, ⟨⟨?_, ?_⟩, ?_, fun _ => ?_, fun _ => rfl⟩, ?_⟩
      · rw [sameShared]
        exact ⟨by rw [sameCount]; exact sound.inTable.positive,
          by rw [sameCount]; exact sound.inTable.bound⟩
      · rw [sameShared]
        exact afterSound
      · rw [sameShared]
        exact grows
      · rw [count, sameShared]
      · rw [sameShared, sameCount]
    case isFalse failed =>
      refine ⟨false, _, rfl, ⟨⟨?_, ?_⟩, grows, fun never => ?_, fun isLengthened => ?_⟩, sameCount⟩
      · exact ⟨by rw [sameCount]; exact sound.inTable.positive,
          by rw [sameCount]; exact sound.inTable.bound⟩
      · rw [sameCount, sameProcess]
        exact sound.process
      · cases never
      · exact absurd (isLong.trans isLengthened) failed
  case isFalse none =>
    have behind := sound.process.behind
    exact ⟨true, handle, rfl, ⟨sound, .refl _, fun _ => by omega, fun _ => rfl⟩, rfl⟩

theorem allocate_more (maps : system.Maps) {handle : Handle} (sound : handle.Sound headerBlock)
    (room : handle.shared.allocatedBlocks + 1 < maxBlockNum) :
    ∃ ok after, allocate headerBlock system true handle = some (ok, after) ∧
      Caught headerBlock system handle ok after ∧
      after.shared.allocatedBlocks = handle.shared.allocatedBlocks + 1 := by
  have positive := sound.inTable.positive
  have counted : Handle.Sound headerBlock
      { handle with shared.allocatedBlocks := handle.shared.allocatedBlocks + 1 } :=
    ⟨⟨by show 0 ≤ handle.shared.allocatedBlocks + 1; omega, room⟩,
      sound.process.mono (by show _ ≤ handle.shared.allocatedBlocks + 1; omega)⟩
  obtain ⟨ok, after, mapped, caught, count⟩ := mapMissing_spec maps counted
  refine ⟨ok, after, ?_, ⟨caught.sound, ?_, caught.caughtUp, caught.works⟩, count⟩
  · rw [allocate, if_pos rfl, if_neg (by omega), mapped]
  · have more : handle.shared.Grows headerBlock
        { handle.shared with allocatedBlocks := handle.shared.allocatedBlocks + 1 } :=
      ⟨by show _ ≤ handle.shared.allocatedBlocks + 1; omega, fun _ _ => rfl⟩
    exact more.trans caught.grows

theorem extendCheck_spec (maps : system.Maps) {handle : Handle}
    (sound : handle.Sound headerBlock) :
    ∃ ok after, extendCheck headerBlock system handle = some (ok, after) ∧
      Caught headerBlock system handle ok after := by
  rw [extendCheck]
  split
  case isTrue missing =>
    obtain ⟨ok, after, mapped, caught, _⟩ := mapMissing_spec maps sound
    exact ⟨ok, after, mapped, caught⟩
  case isFalse none =>
    have behind := sound.process.behind
    exact ⟨true, handle, rfl, ⟨sound, .refl _, fun _ => by omega, fun _ => rfl⟩⟩

theorem reachBlock_spec (maps : system.Maps) {currBlock : Nat} (inTable : currBlock < maxBlockNum)
    (rounds : Nat) {handle : Handle} (sound : handle.Sound headerBlock)
    (caughtUp : handle.process.allocatedBlocks = handle.shared.allocatedBlocks)
    (enough : (currBlock : Int) ≤ handle.shared.allocatedBlocks + rounds) :
    ∃ ok after, reachBlock headerBlock system currBlock rounds handle = some (ok, after) ∧
      Caught headerBlock system handle ok after ∧
      (ok = true → (currBlock : Int) ≤ after.shared.allocatedBlocks) := by
  induction rounds generalizing handle with
  | zero =>
    exact ⟨true, handle, rfl, ⟨sound, .refl _, fun _ => caughtUp, fun _ => rfl⟩,
      fun _ => by omega⟩
  | succ rounds induction =>
    rw [reachBlock]
    split
    case isTrue less =>
      obtain ⟨ok, next, allocated, caught, count⟩ :=
        allocate_more maps sound (by omega)
      rw [allocated, Option.bind_some]
      cases ok with
      | false =>
        exact ⟨false, next, rfl, caught, fun never => by cases never⟩
      | true =>
        obtain ⟨ok, after, reached, later, isThere⟩ :=
          induction caught.sound (caught.caughtUp rfl) (by omega)
        exact ⟨ok, after, reached,
          ⟨later.sound, caught.grows.trans later.grows, later.caughtUp, later.works⟩, isThere⟩
    case isFalse there =>
      exact ⟨true, handle, rfl, ⟨sound, .refl _, fun _ => caughtUp, fun _ => rfl⟩,
        fun _ => by omega⟩

variable {size key : Nat}

theorem blockStart_add_offset (headerBlock size key : Nat) :
    blockStart headerBlock (currBlock size key) + offset size key = headerBlock + key * size := by
  have whole := Nat.div_add_mod' (key * size) blockSize
  rw [blockStart, currBlock, offset]
  omega

theorem recordAddress_of_fits (fits : Fits size key) {process : Process} {allocated : Int}
    (sound : process.Sound headerBlock allocated)
    (isCounted : (currBlock size key : Int) ≤ process.allocatedBlocks) :
    recordAddress size key process = some (headerBlock + key * size) := by
  rw [recordAddress, if_pos fits.1, sound.mapped _ isCounted, Option.bind_some, if_pos fits.2,
    blockStart_add_offset]

theorem fits_of_recordAddress {process : Process} {address : Nat}
    (isAddress : recordAddress size key process = some address) : Fits size key := by
  rw [recordAddress] at isAddress
  split at isAddress
  case isTrue inTable =>
    obtain ⟨start, _, isStart⟩ := Option.bind_eq_some_iff.mp isAddress
    split at isStart
    case isTrue inBlock => exact ⟨inTable, inBlock⟩
    case isFalse => cases isStart
  case isFalse => cases isAddress

theorem frmAdd_of_fits (maps : system.Maps) (fits : Fits size key) (data : List UInt8)
    {handle : Handle} (sound : handle.Sound headerBlock) :
    ∃ ok reached, Caught headerBlock system handle ok reached ∧
      (ok = true → (currBlock size key : Int) ≤ reached.shared.allocatedBlocks) ∧
      frmAdd headerBlock system size key data handle = some (ok,
        if ok then reached.writeFile (headerBlock + key * size) data else reached) := by
  have inBlock := fits.2
  rw [frmAdd, if_neg (by omega)]
  obtain ⟨ok, checked, isChecked, caught⟩ := extendCheck_spec maps sound
  rw [isChecked, Option.bind_some]
  cases ok with
  | false => exact ⟨false, checked, caught, fun never => absurd never Bool.false_ne_true, rfl⟩
  | true =>
    have positive := caught.sound.inTable.positive
    obtain ⟨ok, reached, isReached, later, isThere⟩ := reachBlock_spec maps fits.1
      (currBlock size key - checked.shared.allocatedBlocks).toNat caught.sound
      (caught.caughtUp rfl) (by omega)
    have both : Caught headerBlock system handle ok reached :=
      ⟨later.sound, caught.grows.trans later.grows, later.caughtUp, later.works⟩
    refine ⟨ok, reached, both, isThere, ?_⟩
    rw [if_pos rfl, isReached, Option.bind_some]
    cases ok with
    | false => rfl
    | true =>
      rw [if_pos rfl, recordAddress_of_fits fits later.sound.process
        (by rw [later.caughtUp rfl]; exact isThere rfl)]
      rfl

theorem reachBlock_behindTable (maps : system.Maps) (lengthens : system.lengthens = true)
    {currBlock : Nat} (behind : maxBlockNum ≤ currBlock) (rounds : Nat) {handle : Handle}
    (sound : handle.Sound headerBlock)
    (caughtUp : handle.process.allocatedBlocks = handle.shared.allocatedBlocks)
    (enough : (currBlock : Int) ≤ handle.shared.allocatedBlocks + rounds) :
    reachBlock headerBlock system currBlock rounds handle = none := by
  have bound := sound.inTable.bound
  have positive := sound.inTable.positive
  induction rounds generalizing handle with
  | zero => omega
  | succ rounds induction =>
    rw [reachBlock, if_pos (by omega)]
    by_cases room : handle.shared.allocatedBlocks + 1 < maxBlockNum
    · obtain ⟨ok, next, allocated, caught, count⟩ := allocate_more maps sound room
      obtain rfl := caught.works lengthens
      rw [allocated, Option.bind_some, if_pos rfl]
      have onward : (currBlock : Int) ≤ next.shared.allocatedBlocks + rounds := by omega
      exact induction caught.sound (caught.caughtUp rfl) onward
        caught.sound.inTable.bound caught.sound.inTable.positive
    · have last : handle.shared.allocatedBlocks = 127 := by
        have isMax : (maxBlockNum : Int) = 128 := rfl
        omega
      have outside : allocate headerBlock system true handle = none := by
        rw [allocate, if_pos rfl, if_neg (by omega), mapMissing]
        have missing : handle.process.allocatedBlocks < handle.shared.allocatedBlocks + 1 := by
          omega
        rw [if_pos missing, extendFile, if_pos lengthens, if_pos rfl, extendMmap]
        have one : (handle.shared.allocatedBlocks + 1 - handle.process.allocatedBlocks).toNat =
            1 := by omega
        show mapBlocks headerBlock system
          (handle.shared.allocatedBlocks + 1 - handle.process.allocatedBlocks).toNat _ = none
        rw [one, mapBlocks, if_pos (maps _), if_neg]
        show ¬ (handle.process.allocatedBlocks + 1).toNat < 128
        omega
      rw [outside]
      rfl

theorem fits_of_frmAdd (maps : system.Maps) (lengthens : system.lengthens = true)
    (accepted : size ≤ blockSize) (data : List UInt8) {handle : Handle}
    (sound : handle.Sound headerBlock)
    (ran : (frmAdd headerBlock system size key data handle).isSome = true) : Fits size key := by
  rw [frmAdd, if_neg (by omega)] at ran
  obtain ⟨ok, checked, isChecked, caught⟩ := extendCheck_spec maps sound
  obtain rfl := caught.works lengthens
  have positive := caught.sound.inTable.positive
  rw [isChecked, Option.bind_some, if_pos rfl] at ran
  by_cases inTable : currBlock size key < maxBlockNum
  · obtain ⟨ok, reached, isReached, later, isThere⟩ := reachBlock_spec maps inTable
      (currBlock size key - checked.shared.allocatedBlocks).toNat caught.sound
      (caught.caughtUp rfl) (by omega)
    obtain rfl := later.works lengthens
    rw [isReached, Option.bind_some, if_pos rfl, Option.isSome_map] at ran
    obtain ⟨address, isAddress⟩ := Option.isSome_iff_exists.mp ran
    exact fits_of_recordAddress isAddress
  · have enough : (currBlock size key : Int) ≤ checked.shared.allocatedBlocks +
        (currBlock size key - checked.shared.allocatedBlocks).toNat := by omega
    rw [reachBlock_behindTable maps lengthens (by omega) _ caught.sound (caught.caughtUp rfl)
      enough] at ran
    cases ran

theorem frmRead_spec (maps : system.Maps) {handle : Handle} (sound : handle.Sound headerBlock)
    (fits : Fits size key) :
    ∃ ok after, Caught headerBlock system handle ok after ∧
      frmRead headerBlock system size key handle = some
        (if ok ∧ (currBlock size key : Int) ≤ after.process.allocatedBlocks then
          some (after.shared.file.read (headerBlock + key * size) size) else none, after) := by
  rw [frmRead]
  obtain ⟨ok, checked, isChecked, caught⟩ := extendCheck_spec maps sound
  rw [isChecked, Option.bind_some]
  refine ⟨ok, checked, caught, ?_⟩
  cases ok with
  | false => rfl
  | true =>
    rw [if_pos rfl]
    by_cases isCounted : (currBlock size key : Int) ≤ checked.process.allocatedBlocks
    · have notBehind : ¬ checked.process.allocatedBlocks < currBlock size key := by omega
      rw [if_neg notBehind, if_pos ⟨rfl, isCounted⟩,
        recordAddress_of_fits fits caught.sound.process isCounted]
      rfl
    · have isBehind : checked.process.allocatedBlocks < currBlock size key := by omega
      rw [if_pos isBehind, if_neg fun both => isCounted both.2]

end Handles

section Runs

variable {headerBlock size : Nat}

/-- Every process is sound, and what was added is in the file. -/
structure State.Sound (headerBlock size : Nat) (state : State) : Prop where
  inTable : state.shared.InTable
  processes : ∀ process blocks, state.processes process = some blocks →
    blocks.Sound headerBlock state.shared.allocatedBlocks
  added : ∀ key data, state.added key = some data →
    Fits size key ∧ (currBlock size key : Int) ≤ state.shared.allocatedBlocks ∧
      data.length = size ∧ state.shared.file.read (headerBlock + key * size) size = data

theorem newFile_sound : newFile.Sound headerBlock size where
  inTable := ⟨le_refl _, by decide⟩
  processes := by
    intro process blocks isBlocks
    cases isBlocks
  added := by
    intro key data isData
    cases isData

theorem record_inBlocks {key : Nat} (fits : Fits size key) {allocated : Int}
    (isThere : (currBlock size key : Int) ≤ allocated) :
    ((headerBlock + key * size + size : Nat) : Int) ≤ headerBlock + (allocated + 1) * blockSize := by
  have whole := Nat.div_add_mod' (key * size) blockSize
  have inBlock := fits.2
  have isSize : blockSize = 1048576 := rfl
  rw [currBlock] at isThere
  rw [offset] at inBlock
  rw [isSize] at whole isThere inBlock ⊢
  omega

theorem Shared.Grows.read {before after : Shared} (grows : before.Grows headerBlock after)
    {key : Nat} (fits : Fits size key)
    (isThere : (currBlock size key : Int) ≤ before.allocatedBlocks) :
    after.file.read (headerBlock + key * size) size =
      before.file.read (headerBlock + key * size) size := by
  apply Mem.read_congr
  intro index bound
  refine grows.file _ ?_
  have inBlocks := @record_inBlocks headerBlock size key fits _ isThere
  omega

theorem State.Sound.grow {state : State} (sound : state.Sound headerBlock size)
    {after : Shared} (grows : state.shared.Grows headerBlock after) (inTable : after.InTable)
    (process : Nat) {blocks : Option Process}
    (isSound : ∀ some, blocks = Option.some some → some.Sound headerBlock after.allocatedBlocks) :
    State.Sound headerBlock size
      { state with
        shared := after
        processes := Function.update state.processes process blocks } where
  inTable := inTable
  processes := by
    intro other otherBlocks isOther
    by_cases same : other = process
    · subst same
      exact isSound otherBlocks ((Function.update_self other blocks state.processes).symm.trans
        isOther)
    · refine (sound.processes other otherBlocks ?_).mono grows.allocated
      exact (Function.update_of_ne same blocks state.processes).symm.trans isOther
  added := by
    intro key data isAdded
    obtain ⟨fits, isThere, length, isRead⟩ := sound.added key data isAdded
    exact ⟨fits, isThere.trans grows.allocated, length, (grows.read fits isThere).trans isRead⟩

theorem State.Sound.handle {state : State} (sound : state.Sound headerBlock size) {process : Nat}
    {handle : Handle} (isHandle : state.handle process = some handle) :
    handle.shared = state.shared ∧ handle.Sound headerBlock := by
  obtain ⟨blocks, isBlocks, rfl⟩ := Option.map_eq_some_iff.mp isHandle
  exact ⟨rfl, sound.inTable, sound.processes process blocks isBlocks⟩

theorem State.Sound.put {state : State} (sound : state.Sound headerBlock size) {process : Nat}
    {handle after : Handle} (isHandle : state.handle process = some handle)
    {system : System} {ok : Bool} (caught : Caught headerBlock system handle ok after) :
    (state.put process after).Sound headerBlock size := by
  have grows := caught.grows
  rw [(sound.handle isHandle).1] at grows
  refine sound.grow grows caught.sound.inTable process ?_
  rintro some ⟨⟩
  exact caught.sound.process

theorem State.Sound.start {state : State} (sound : state.Sound headerBlock size)
    {system : System} (maps : system.Maps) (process : Nat) :
    ∃ next, step headerBlock size state (.start system process) = some next ∧
      next.Sound headerBlock size := by
  have stays : State.Sound headerBlock size
      { state with processes := Function.update state.processes process none } :=
    sound.grow (.refl _) sound.inTable process (fun blocks never => by cases never)
  rw [step, frmOpen]
  split
  case isTrue => exact ⟨_, rfl, stays⟩
  case isFalse =>
    have fresh : Handle.Sound headerBlock ⟨state.shared, newProcess⟩ :=
      ⟨sound.inTable, newProcess_sound sound.inTable.positive⟩
    have missing : newProcess.allocatedBlocks < state.shared.allocatedBlocks := by
      have positive := sound.inTable.positive
      show (-1 : Int) < _
      omega
    obtain ⟨ok, after, mapped, caught, _⟩ := mapMissing_spec maps fresh
    rw [mapMissing, if_pos missing] at mapped
    have opened : ∀ blocks, (blocks = none ∨ blocks = some after.process) →
        State.Sound headerBlock size
          { state with
            shared := after.shared
            processes := Function.update state.processes process blocks } := by
      intro blocks isBlocks
      refine sound.grow caught.grows caught.sound.inTable process ?_
      rintro some rfl
      rcases isBlocks with never | same
      · cases never
      · cases same
        exact caught.sound.process
    split at mapped
    case isTrue extended =>
      rw [if_pos extended, mapped]
      refine ⟨_, rfl, opened _ ?_⟩
      cases ok with
      | false => exact .inl rfl
      | true => exact .inr rfl
    case isFalse notExtended =>
      rw [if_neg notExtended]
      cases mapped
      exact ⟨_, rfl, opened none (.inl rfl)⟩

theorem State.Sound.record {state : State} (sound : state.Sound headerBlock size) {key : Nat}
    (fits : Fits size key) (isThere : (currBlock size key : Int) ≤ state.shared.allocatedBlocks)
    (data : Record size) :
    State.Sound headerBlock size
      { state with
        shared.file := state.shared.file.write (headerBlock + key * size) data.1
        added := Function.update state.added key (some data.1) } where
  inTable := ⟨sound.inTable.positive, sound.inTable.bound⟩
  processes := sound.processes
  added := by
    have written := state.shared.file.read_write (headerBlock + key * size) data.1
    rw [data.2] at written
    intro other otherData isAdded
    by_cases same : other = key
    · subst same
      have isData : some data.1 = some otherData :=
        (Function.update_self other (some data.1) state.added).symm.trans isAdded
      cases isData
      exact ⟨fits, isThere, data.2, written⟩
    · have isOld : state.added other = some otherData :=
        (Function.update_of_ne same (some data.1) state.added).symm.trans isAdded
      obtain ⟨otherFits, otherThere, length, isRead⟩ := sound.added other otherData isOld
      refine ⟨otherFits, otherThere, length, Eq.trans (Mem.read_write_disjoint ?_) isRead⟩
      rw [data.2]
      rcases Nat.lt_or_gt_of_ne same with less | greater
      · have behind := Nat.mul_le_mul_right size (Nat.succ_le_of_lt less)
        rw [Nat.succ_mul] at behind
        omega
      · have behind := Nat.mul_le_mul_right size (Nat.succ_le_of_lt greater)
        rw [Nat.succ_mul] at behind
        omega

theorem State.Sound.add {state : State} (sound : state.Sound headerBlock size)
    {system : System} (maps : system.Maps) (process : Nat) {key : Nat} (fits : Fits size key)
    (data : Record size) :
    ∃ next, step headerBlock size state (.add system process key data) = some next ∧
      next.Sound headerBlock size := by
  rw [step]
  cases isHandle : state.handle process with
  | none => exact ⟨state, rfl, sound⟩
  | some handle =>
    obtain ⟨ok, reached, caught, isThere, ran⟩ :=
      frmAdd_of_fits maps fits data.1 (sound.handle isHandle).2
    have before := sound.put isHandle caught
    refine ⟨_, congrArg (Option.map _) ran, ?_⟩
    cases ok with
    | false => exact before
    | true => exact before.record fits (isThere rfl) data

theorem State.Sound.read {state : State} (sound : state.Sound headerBlock size)
    {system : System} (maps : system.Maps) (process : Nat) {key : Nat} (fits : Fits size key) :
    ∃ next, step headerBlock size state (.read system process key) = some next ∧
      next.Sound headerBlock size := by
  rw [step]
  cases isHandle : state.handle process with
  | none => exact ⟨state, rfl, sound⟩
  | some handle =>
    obtain ⟨ok, after, caught, ran⟩ := frmRead_spec maps (sound.handle isHandle).2 fits
    exact ⟨_, congrArg (Option.map _) ran, sound.put isHandle caught⟩

/-- No `mmap` fails, and a key that is used has its record in one block of the table. -/
def Allowed (size : Nat) (_ : State) : Event size → Prop
  | .start system _ => system.Maps
  | .add system _ key _ => system.Maps ∧ Fits size key
  | .read system _ key => system.Maps ∧ Fits size key

theorem State.Sound.step {state : State} (sound : state.Sound headerBlock size)
    {event : Event size} (allowed : Allowed size state event) :
    ∃ next, Frm.step headerBlock size state event = some next ∧
      next.Sound headerBlock size := by
  cases event with
  | start system process => exact sound.start allowed process
  | add system process key data => exact sound.add allowed.1 process allowed.2 data
  | read system process key => exact sound.read allowed.1 process allowed.2

theorem sound_of_reach {state : State}
    (reached : Reach (Frm.step headerBlock size) (Allowed size) newFile state) :
    state.Sound headerBlock size := by
  refine reached.invariant (State.Sound headerBlock size) newFile_sound ?_
  intro before event after sound allowed stepped
  obtain ⟨next, isNext, nextSound⟩ := sound.step allowed
  rw [isNext] at stepped
  cases stepped
  exact nextSound

/-- In every run of any processes in which the records of all keys lie in one block of
the table, no call leaves the blocks and every process reads what was last added; and it
is these keys only that can be added without leaving them. -/
theorem frm_isArray_iff (pageSize size : Nat) {state : State}
    (reached : Reach (Frm.step (headerBlockSize pageSize) size) (Allowed size) newFile state) :
    (∀ event, Allowed size state event →
      ∃ next, Frm.step (headerBlockSize pageSize) size state event = some next) ∧
      ∀ process handle, state.handle process = some handle → ∀ system : System, system.Maps →
        system.lengthens = true →
          (∀ key data, state.added key = some data →
            ∃ after, frmRead (headerBlockSize pageSize) system size key handle =
              some (some data, after)) ∧
          ∀ key (data : Record size), size ≤ blockSize →
            ((∃ after, frmAdd (headerBlockSize pageSize) system size key data handle =
              some (true, after)) ↔ Fits size key) := by
  have sound := sound_of_reach reached
  refine ⟨fun event allowed => ?_, ?_⟩
  · obtain ⟨next, stepped, _⟩ := sound.step allowed
    exact ⟨next, stepped⟩
  · intro process handle isHandle system maps lengthens
    obtain ⟨sameShared, handleSound⟩ := sound.handle isHandle
    constructor
    · intro key data isAdded
      obtain ⟨fits, isThere, _, isRead⟩ := sound.added key data isAdded
      obtain ⟨ok, after, caught, ran⟩ := frmRead_spec maps handleSound fits
      obtain rfl := caught.works lengthens
      have grows := caught.grows
      rw [sameShared] at grows
      have isCounted : (currBlock size key : Int) ≤ after.process.allocatedBlocks := by
        rw [caught.caughtUp rfl]
        exact isThere.trans grows.allocated
      refine ⟨after, ?_⟩
      rw [ran, if_pos ⟨rfl, isCounted⟩, grows.read fits isThere, isRead]
    · intro key data accepted
      constructor
      · rintro ⟨after, ran⟩
        exact fits_of_frmAdd maps lengthens accepted data handleSound (by rw [ran]; rfl)
      · intro fits
        obtain ⟨ok, reached, caught, _, ran⟩ := frmAdd_of_fits maps fits data.1 handleSound
        obtain rfl := caught.works lengthens
        exact ⟨_, ran⟩

def working : System := ⟨true, fun _ => true⟩

theorem frm_isArray_two :
    ∃ state, Reach (Frm.step (headerBlockSize 4096) 4) (Allowed 4) newFile state ∧
      ∃ handle, state.handle 1 = some handle ∧
        ∃ after, frmRead (headerBlockSize 4096) working 4 300000 handle =
          some (some [1, 2, 3, 4], after) := by
  have maps : working.Maps := fun _ => rfl
  have added : ∃ state, Reach (Frm.step (headerBlockSize 4096) 4) (Allowed 4) newFile state ∧
      (∃ handle, state.handle 1 = some handle) ∧
      state.added 300000 = some [1, 2, 3, 4] := by
    have fits : working.Maps ∧ Fits 4 300000 := ⟨maps, by decide⟩
    exact ⟨_, ((Reach.start.step (.start working 0) maps rfl).step
      (.add working 0 300000 ⟨[1, 2, 3, 4], rfl⟩) fits rfl).step (.start working 1) maps rfl,
      ⟨_, rfl⟩, rfl⟩
  obtain ⟨state, reached, ⟨handle, isHandle⟩, isAdded⟩ := added
  exact ⟨state, reached, handle, isHandle,
    ((frm_isArray_iff 4096 4 reached).2 1 handle isHandle working maps rfl).1 300000 _ isAdded⟩

/-- A record that begins in the first block and does not end there. -/
theorem frm_notArray :
    ∃ state, Reach (Frm.step (headerBlockSize 4096) 6) (fun _ _ => True) newFile state ∧
      ∃ handle, state.handle 0 = some handle ∧ 6 ≤ blockSize ∧
        frmAdd (headerBlockSize 4096) working 6 174762 [1, 2, 3, 4, 5, 6] handle = none := by
  refine ⟨_, Reach.start.step (.start working 0) trivial rfl, _, rfl, by decide, rfl⟩

end Runs

end Wisebot.Frm
