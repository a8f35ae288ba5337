import Wisebot.Vrm.Latest

namespace Wisebot.Vrm

open Lib

/-! Where the records of a store stand: each one in one block and apart from the
others, as long as a record with its size fits in a block. -/

structure Extent where
  block : Nat
  offset : Nat
  size : Nat

def Extent.Apart (first second : Extent) : Prop :=
  first.block ≠ second.block ∨ first.offset + first.size ≤ second.offset ∨
    second.offset + second.size ≤ first.offset

/-- `vrm_add` up to the pointer that the record is written through; `false` is a
`FAIL` with nothing written. -/
def saveDataPosition (data : MmapFile) (size : Nat) : Option (Bool × MmapFile) :=
  (extendCheck data).bind fun (checked, data) =>
    if checked = false then some (false, data) else makeRoom data size

/-- The extent that is written; the file has the block that the pointer is in. -/
def extentAt (file : MmapFile) (size : Nat) : Extent :=
  ⟨file.image.allocatedBlocks, file.image.nextPosition, 4 + size⟩

/-- Where `vrm_add` writes the record, when it does not fail before. -/
def recordExtent (data : MmapFile) (size : Nat) : Option Extent :=
  match saveDataPosition data size with
  | some (true, file) => some (extentAt file size)
  | _ => none

/-- A record of the size is written inside of one mapped block and over no record that
was there, unless `vrm_add` fails and writes none. -/
def RecordInside (extents : List Extent) (data : MmapFile) (size : Nat) : Prop :=
  match saveDataPosition data size with
  | none => False
  | some (false, _) => True
  | some (true, file) =>
    (file.image.allocatedBlocks : Int) ≤ file.allocatedBlocks ∧
      (extentAt file size).offset + (extentAt file size).size ≤ maxBlockSize ∧
      ∀ extent ∈ extents, (extentAt file size).Apart extent

/-- A store with the extents of its records, the last one first. -/
structure Placed where
  store : Store
  extents : List Extent

/-- One call under the lock; a `vrm_add` may fail. -/
def placedStep (placed : Placed) : Event → Option Placed
  | .vrmAdd process key bytes =>
    (placed.store.handle process).bind fun vrm =>
      (vrmAdd vrm key bytes).map fun (added, after) =>
        if added then
          { store := { placed.store.leave process after with
              adds := (key, bytes) :: placed.store.adds }
            extents := (recordExtent vrm.data bytes.length).toList ++ placed.extents }
        else { placed with store := placed.store.leave process after }
  | event => (step placed.store event).map fun store => { placed with store := store }

def placedStart : Placed := ⟨start, []⟩

/-- A record that is not refused for its size fits in a block with the length word in
front, and its block has a place in the array of blocks. -/
def Fits (placed : Placed) : Event → Prop
  | .vrmAdd _ _ bytes =>
    bytes.length ≤ maxBlockSize →
      bytes.length + 4 ≤ maxBlockSize ∧ dataBlock placed.store.data bytes.length < maxBlockNum
  | _ => True

variable {vrm after : VrmT} {key process : Nat} {bytes : List UInt8} {added : Bool}
  {data file : MmapFile}

theorem saveDataPosition_eq (ready : Ready data)
    (position : data.image.nextPosition ≤ maxBlockSize) {size : Nat}
    (fits : size + 4 ≤ maxBlockSize) (small : dataBlock data.image size < maxBlockNum) :
    ∃ roomy, saveDataPosition data size = some (true, wholly roomy) ∧
      (roomy = data.image ∨ roomy = nextBlock data.image ∧ 0 < data.image.nextPosition) ∧
      roomy.nextPosition + 4 + size ≤ maxBlockSize ∧
      roomy.allocatedBlocks < maxBlockNum := by
  obtain ⟨roomy, isRoomy, which, room, block⟩ := makeRoom_eq ready.fresh position fits small
  refine ⟨roomy, ?_, which, room, block ▸ small⟩
  rw [saveDataPosition, extendCheck_eq ready]
  exact isRoomy

theorem extendCheck_checked {checked : Bool}
    (result : extendCheck data = some (checked, file)) : checked = true := by
  rw [extendCheck, allocate] at result
  simp only [Bool.false_eq_true, false_and, if_false] at result
  split_ifs at result
  · obtain ⟨_, -, same⟩ := Option.map_eq_some_iff.mp result
    exact (congrArg Prod.fst same).symm
  · exact (congrArg Prod.fst (Option.some.inj result)).symm
  · exact (congrArg Prod.fst (Option.some.inj result)).symm

theorem vrmAdd_data (ready : Ready vrm.data) {roomy : Image}
    (accepted : bytes.length ≤ maxBlockSize)
    (isRoomy : saveDataPosition vrm.data bytes.length = some (true, wholly roomy))
    (room : roomy.nextPosition + 4 + bytes.length ≤ maxBlockSize)
    (result : vrmAdd vrm key bytes = some (added, after)) :
    added = true ∧ after.data = wholly (withRecord roomy bytes) := by
  have isSaved : saveData (wholly roomy) bytes = some (wholly (withRecord roomy bytes)) := by
    rw [saveData, if_neg]
    · rfl
    · rintro (unmapped | outside)
      · exact absurd unmapped (lt_irrefl _)
      · exact absurd outside (Nat.not_lt.mpr room)
  rw [saveDataPosition, extendCheck_eq ready] at isRoomy
  simp only [Option.bind_some, Bool.true_eq_false, if_false] at isRoomy
  rw [vrmAdd, if_neg (by omega), extendCheck_eq ready] at result
  obtain ⟨⟨checked, index⟩, isChecked, result⟩ := Option.bind_eq_some_iff.mp result
  obtain rfl := extendCheck_checked isChecked
  simp only [Option.bind_some, Bool.true_eq_false, if_false, isRoomy, isSaved] at result
  obtain ⟨_, -, same⟩ := Option.map_eq_some_iff.mp result
  cases same
  exact ⟨rfl, rfl⟩

theorem vrmRead_data {answer : Option (List UInt8)} (ready : Ready vrm.data)
    (result : vrmRead vrm key = some (answer, after)) :
    after.data = wholly vrm.data.image := by
  rw [vrmRead, extendCheck_eq ready] at result
  obtain ⟨⟨checked, index⟩, isChecked, result⟩ := Option.bind_eq_some_iff.mp result
  obtain rfl := extendCheck_checked isChecked
  simp only [Option.bind_some, Bool.true_eq_false, if_false] at result
  split at result
  · cases result
    rfl
  · split_ifs at result
    cases result
    rfl

structure Separate (placed : Placed) : Prop where
  fresh : Fresh placed.store.data
  small : placed.store.data.allocatedBlocks < maxBlockNum
  mapped : ∀ process mapped, placed.store.processes process = some mapped →
    mapped.2 ≤ placed.store.data.allocatedBlocks
  position : placed.store.data.nextPosition ≤ maxBlockSize
  inBlock : ∀ extent ∈ placed.extents, extent.block ≤ placed.store.data.allocatedBlocks ∧
    extent.offset + extent.size ≤ maxBlockSize
  below : ∀ extent ∈ placed.extents, extent.block = placed.store.data.allocatedBlocks →
    extent.offset + extent.size ≤ placed.store.data.nextPosition
  apart : placed.extents.Pairwise Extent.Apart

theorem placedStart_separate : Separate placedStart where
  fresh := fun _ _ => rfl
  small := by decide
  mapped := by
    rintro process mapped ⟨⟩
  position := Nat.zero_le _
  inBlock := by
    rintro extent ⟨⟩
  below := by
    rintro extent ⟨⟩
  apart := List.Pairwise.nil

variable {placed next : Placed}

theorem Separate.ready (separate : Separate placed)
    (isOpen : placed.store.handle process = some vrm) :
    vrm.data.image = placed.store.data ∧ Ready vrm.data := by
  obtain ⟨mapped, isMapped, rfl⟩ := Option.map_eq_some_iff.mp isOpen
  exact ⟨rfl, separate.fresh, separate.small, separate.mapped process mapped isMapped⟩

theorem mapped_update {processes : Nat → Option (Int × Int)} {bound : Int}
    (all : ∀ process mapped, processes process = some mapped → mapped.2 ≤ bound)
    (process : Nat) {entry : Option (Int × Int)}
    (new : ∀ mapped, entry = some mapped → mapped.2 ≤ bound) (other : Nat) (mapped : Int × Int)
    (isMapped : Function.update processes process entry other = some mapped) :
    mapped.2 ≤ bound := by
  rcases eq_or_ne other process with rfl | different
  · rw [Function.update_self] at isMapped
    exact new mapped isMapped
  · rw [Function.update_of_ne different] at isMapped
    exact all other mapped isMapped

theorem Separate.leave (separate : Separate placed) (process : Nat)
    (image : after.data.image = placed.store.data)
    (mapped : after.data.allocatedBlocks ≤ placed.store.data.allocatedBlocks) :
    Separate { placed with store := placed.store.leave process after } := by
  have same : (placed.store.leave process after).data = placed.store.data := image
  refine ⟨?_, ?_, ?_, ?_, ?_, ?_, separate.apart⟩
  · simpa only [same] using separate.fresh
  · simpa only [same] using separate.small
  · simp only [same]
    refine mapped_update separate.mapped process ?_
    rintro _ ⟨⟩
    exact mapped
  · simpa only [same] using separate.position
  · simpa only [same] using separate.inBlock
  · simpa only [same] using separate.below

theorem Separate.close (separate : Separate placed) (process : Nat) :
    Separate { placed with store := { placed.store with
      processes := Function.update placed.store.processes process none } } :=
  ⟨separate.fresh, separate.small, mapped_update separate.mapped process (by rintro _ ⟨⟩),
    separate.position, separate.inBlock, separate.below, separate.apart⟩

/-- The new record is behind the others of its block, or the first one of a new block. -/
theorem Separate.new_apart (separate : Separate placed) {roomy : Image}
    (which : roomy = placed.store.data ∨
      roomy = nextBlock placed.store.data ∧ 0 < placed.store.data.nextPosition)
    {size : Nat} {extent : Extent} (old : extent ∈ placed.extents) :
    (extentAt (wholly roomy) size).Apart extent := by
  have present := (separate.inBlock extent old).1
  rcases which with rfl | ⟨rfl, -⟩
  · rcases eq_or_ne placed.store.data.allocatedBlocks extent.block with same | different
    · exact .inr (.inr (separate.below extent old same.symm))
    · exact .inl different
  · apply Or.inl
    show placed.store.data.allocatedBlocks + 1 ≠ extent.block
    omega

theorem Separate.withExtent (separate : Separate placed) {roomy : Image}
    (which : roomy = placed.store.data ∨
      roomy = nextBlock placed.store.data ∧ 0 < placed.store.data.nextPosition)
    (room : roomy.nextPosition + 4 + bytes.length ≤ maxBlockSize)
    (small : roomy.allocatedBlocks < maxBlockNum) (process key : Nat)
    (same : after.data = wholly (withRecord roomy bytes)) :
    Separate ⟨{ placed.store.leave process after with
        adds := (key, bytes) :: placed.store.adds },
      extentAt (wholly roomy) bytes.length :: placed.extents⟩ := by
  have image : (placed.store.leave process after).data = withRecord roomy bytes := by
    rw [Store.leave, same]
    rfl
  have grown : placed.store.data.allocatedBlocks ≤ roomy.allocatedBlocks := by
    rcases which with rfl | ⟨rfl, -⟩
    · exact le_rfl
    · exact Nat.le_succ _
  have inside : roomy.nextPosition + (4 + bytes.length) ≤ maxBlockSize := by omega
  refine ⟨?_, ?_, ?_, ?_, ?_, ?_, ?_⟩
  · have fresh : Fresh roomy := by
      rcases which with rfl | ⟨rfl, -⟩
      · exact separate.fresh
      · exact separate.fresh.nextBlock
    simpa only [image] using fresh.withRecord bytes
  · simp only [image]
    exact small
  · simp only [image]
    refine mapped_update (fun other mapped isMapped =>
      (separate.mapped other mapped isMapped).trans (by exact_mod_cast grown)) process ?_
    rintro _ ⟨⟩
    rw [same]
    exact le_rfl
  · simp only [image]
    exact inside
  · intro extent member
    simp only [image]
    rcases List.mem_cons.mp member with rfl | old
    · exact ⟨le_rfl, inside⟩
    · have present := separate.inBlock extent old
      exact ⟨present.1.trans grown, present.2⟩
  · intro extent member last
    simp only [image] at last ⊢
    rcases List.mem_cons.mp member with rfl | old
    · exact le_rfl
    · have present := (separate.inBlock extent old).1
      rcases which with rfl | ⟨rfl, -⟩
      · exact (separate.below extent old last).trans (Nat.le_add_right _ _)
      · have last : extent.block = placed.store.data.allocatedBlocks + 1 := last
        omega
  · exact List.pairwise_cons.mpr
      ⟨fun extent old => separate.new_apart which old, separate.apart⟩

theorem Separate.step (separate : Separate placed) {event : Event} (fits : Fits placed event)
    (stepped : placedStep placed event = some next) : Separate next := by
  cases event with
  | vrmOpen process =>
    obtain ⟨store, opened, rfl⟩ := Option.map_eq_some_iff.mp stepped
    obtain ⟨index, -, opened⟩ := Option.bind_eq_some_iff.mp opened
    rw [fileOpen_eq separate.fresh separate.small] at opened
    cases opened
    exact separate.leave process rfl le_rfl
  | vrmClose process =>
    obtain ⟨store, closed, rfl⟩ := Option.map_eq_some_iff.mp stepped
    obtain ⟨vrm, -, rfl⟩ := Option.map_eq_some_iff.mp closed
    exact separate.close process
  | vrmRead process key =>
    obtain ⟨store, read, rfl⟩ := Option.map_eq_some_iff.mp stepped
    obtain ⟨vrm, isOpen, read⟩ := Option.bind_eq_some_iff.mp read
    obtain ⟨⟨answer, after⟩, result, rfl⟩ := Option.map_eq_some_iff.mp read
    obtain ⟨image, ready⟩ := separate.ready isOpen
    have whole := vrmRead_data ready result
    rw [image] at whole
    exact separate.leave process (congrArg MmapFile.image whole)
      (congrArg MmapFile.allocatedBlocks whole).le
  | vrmAdd process key bytes =>
    obtain ⟨vrm, isOpen, stepped⟩ := Option.bind_eq_some_iff.mp stepped
    obtain ⟨⟨added, after⟩, result, rfl⟩ := Option.map_eq_some_iff.mp stepped
    obtain ⟨image, ready⟩ := separate.ready isOpen
    by_cases accepted : bytes.length ≤ maxBlockSize
    · obtain ⟨inBlock, inArray⟩ := fits accepted
      obtain ⟨roomy, isRoomy, which, room, small⟩ := saveDataPosition_eq ready
        (image ▸ separate.position) inBlock (image ▸ inArray)
      obtain ⟨rfl, written⟩ := vrmAdd_data ready accepted isRoomy room result
      have extent : recordExtent vrm.data bytes.length =
          some (extentAt (wholly roomy) bytes.length) := by
        rw [recordExtent, isRoomy]
      simp only [if_true, extent, Option.toList_some, List.cons_append, List.nil_append]
      exact separate.withExtent (image ▸ which) room small process key written
    · rw [vrmAdd, if_pos (Nat.lt_of_not_le accepted)] at result
      cases result
      exact separate.leave process image (image ▸ ready.mapped)

theorem allocate_last {image : Image} (fresh : Fresh image)
    (last : image.allocatedBlocks + 1 = maxBlockNum) : allocate (wholly image) true = none := by
  have behind : (image.allocatedBlocks : Int) < (nextBlock image).allocatedBlocks := by
    show (image.allocatedBlocks : Int) < (image.allocatedBlocks + 1 : Nat)
    omega
  have room : ¬ (true = true ∧ maxBlockNum ≤ (wholly image).image.allocatedBlocks) := by
    rintro ⟨-, full⟩
    have full : maxBlockNum ≤ image.allocatedBlocks := full
    omega
  rw [allocate, if_neg room]
  simp only [if_true, wholly, behind]
  have beyond : maxBlockNum ≤ (nextBlock image).allocatedBlocks := last.ge
  rw [extendFile_eq fresh.nextBlock, extendMmap]
  simp only [behind, beyond, if_true, Option.map_none]

theorem Separate.recordInside_iff (separate : Separate placed)
    (isOpen : placed.store.handle process = some vrm) {size : Nat} :
    RecordInside placed.extents vrm.data size ↔
      size + 4 ≤ maxBlockSize ∧ dataBlock placed.store.data size < maxBlockNum := by
  obtain ⟨image, ready⟩ := separate.ready isOpen
  have position : vrm.data.image.nextPosition ≤ maxBlockSize := image ▸ separate.position
  constructor
  · intro inside
    rw [RecordInside, saveDataPosition, extendCheck_eq ready, image] at inside
    simp only [Option.bind_some, Bool.true_eq_false, if_false] at inside
    rw [dataBlock]
    by_cases full : maxBlockSize - placed.store.data.nextPosition < size + 4
    · have makes : makeRoom (wholly placed.store.data) size =
          allocate (wholly placed.store.data) true := if_pos ⟨separate.position, full⟩
      rcases Nat.lt_or_ge (placed.store.data.allocatedBlocks + 1) maxBlockNum with below | last
      · rw [makes, allocate_next separate.fresh below] at inside
        have room : 0 + (4 + size) ≤ maxBlockSize := inside.2.1
        rw [if_pos full]
        exact ⟨by omega, below⟩
      · have small := separate.small
        rw [makes, allocate_last separate.fresh (by omega)] at inside
        exact inside.elim
    · rw [if_neg full]
      exact ⟨by omega, separate.small⟩
  · rintro ⟨inBlock, inArray⟩
    obtain ⟨roomy, isRoomy, which, room, -⟩ :=
      saveDataPosition_eq ready position inBlock (image.symm ▸ inArray)
    rw [RecordInside, isRoomy]
    refine ⟨le_rfl, ?_, fun extent old => separate.new_apart (image ▸ which) old⟩
    show roomy.nextPosition + (4 + size) ≤ maxBlockSize
    omega

theorem Separate.vrmAdd_writes (separate : Separate placed)
    (isOpen : placed.store.handle process = some vrm) (inBlock : bytes.length + 4 ≤ maxBlockSize)
    (inArray : dataBlock placed.store.data bytes.length < maxBlockNum)
    (result : vrmAdd vrm key bytes = some (added, after)) :
    ∃ extent, recordExtent vrm.data bytes.length = some extent ∧
      extent.size = 4 + bytes.length ∧
      after.data.image.blocks = Function.update placed.store.data.blocks extent.block
        ((placed.store.data.blocks extent.block).write extent.offset
          (encodeWord 4 bytes.length ++ bytes)) := by
  obtain ⟨image, ready⟩ := separate.ready isOpen
  obtain ⟨roomy, isRoomy, which, room, -⟩ := saveDataPosition_eq ready
    (image ▸ separate.position) inBlock (image.symm ▸ inArray)
  obtain ⟨-, written⟩ := vrmAdd_data ready (by omega) isRoomy room result
  have blocks : roomy.blocks = placed.store.data.blocks := by
    rcases which with rfl | ⟨rfl, -⟩
    · rw [image]
    · rw [image]
      rfl
  refine ⟨extentAt (wholly roomy) bytes.length, ?_, rfl, ?_⟩
  · rw [recordExtent, isRoomy]
  · rw [written, ← blocks]
    rfl

end Wisebot.Vrm
