import Mathlib.Data.List.Perm.Subperm
import Wisebot.Sfs.Files

namespace Wisebot.Sfs

open Wisebot.Lib

/-! Extents that do not overlap are bounded by the file area. -/

def Extent.blocks (extent : Extent) : List Nat := List.range' extent.start extent.count

theorem blocks_nodup {extents : List Extent} (apart : extents.Pairwise Extent.Apart) :
    (extents.flatMap Extent.blocks).Nodup := by
  rw [List.nodup_flatMap]
  refine ⟨fun extent _ => List.nodup_range', apart.imp ?_⟩
  intro first second separate block inFirst inSecond
  simp only [Extent.blocks, List.mem_range'_1] at inFirst inSecond
  rcases separate with before | behind <;> omega

theorem length_fileBytes_le (mem : Mem) {blockSize fill : Nat} {extents : List Extent}
    (bound : fill ≤ blockSize) (nonempty : ∀ extent ∈ extents, 0 < extent.count) :
    (fileBytes mem blockSize fill extents).length ≤
      (extents.flatMap Extent.blocks).length * blockSize := by
  induction extents with
  | nil => simp [fileBytes]
  | cons extent rest induction =>
    have used := usedIn_le rest bound (nonempty extent List.mem_cons_self)
    have others := induction
      (fun other member => nonempty other (List.mem_cons_of_mem _ member))
    simp only [fileBytes, List.length_append, Mem.length_read, List.flatMap_cons,
      Extent.blocks, List.length_range', Nat.add_mul]
    omega

section

variable {geo : Geometry} {mem other : Mem} {free free' : Nat} {entry : DirEntry}
  {extents : List Extent} {content : List UInt8}

theorem Laid.blocks_le (laid : Laid geo mem free entry extents) :
    (extents.flatMap Extent.blocks).length ≤ geo.dirStart := by
  have inside : (extents.flatMap Extent.blocks) ⊆ List.range geo.dirStart := by
    intro block member
    obtain ⟨extent, own, inExtent⟩ := List.mem_flatMap.mp member
    have bound := laid.inFiles extent own
    simp only [Extent.blocks, List.mem_range'_1] at inExtent
    rw [List.mem_range]
    omega
  have length := (List.subperm_of_subset (blocks_nodup laid.apart) inside).length_le
  rwa [List.length_range] at length

theorem Holds.new (geo : Geometry) (mem : Mem) (free id : Nat) :
    Holds geo mem free ⟨id, 0, 0, 0⟩ [] [] where
  first := rfl
  last := rfl
  nonempty := by simp
  above := by simp
  below := by simp
  inFiles := by simp
  apart := .nil
  chained := by
    rw [Chained]
    split <;> simp [Linked]
  size := rfl
  bytes := rfl

theorem Holds.length_lt (holds : Holds geo mem free entry extents content) :
    content.length < 2 ^ 31 := by
  have bytes := length_fileBytes_le mem (Holds.fill_le geo content) holds.nonempty
  rw [holds.bytes] at bytes
  have blocks := Nat.mul_le_mul_right geo.blockSize holds.toLaid.blocks_le
  have area : geo.dirStart * geo.blockSize ≤ geo.blockCount * geo.blockSize :=
    Nat.mul_le_mul_right _ (by have dir_end := geo.dir_end; omega)
  have size := geo.size_fits
  omega

theorem headStart_le {bound : Nat} (below : ∀ extent ∈ extents, extent.start ≤ bound) :
    headStart 0 extents ≤ bound := by
  cases extents with
  | nil => exact Nat.zero_le _
  | cons extent rest => exact below extent List.mem_cons_self

theorem lastStart_le {bound : Nat} (below : ∀ extent ∈ extents, extent.start ≤ bound) :
    lastStart extents ≤ bound := by
  rw [lastStart]
  cases last : extents.getLast? with
  | none => exact Nat.zero_le _
  | some extent => exact below extent (List.mem_of_getLast? last)

theorem Holds.fits (holds : Holds geo mem free entry extents content)
    (idFits : entry.id < 2 ^ 32) : entry.Fits := by
  have length := holds.length_lt
  have count := geo.blockCount_lt
  have dir_end := geo.dir_end
  simp only [countMaxBit] at count
  have below : ∀ extent ∈ extents, extent.start ≤ geo.dirStart := fun extent own =>
    (Nat.le_add_right _ _).trans (holds.inFiles extent own)
  have first := headStart_le below
  have last := lastStart_le below
  exact ⟨idFits, by rw [holds.size]; omega, by rw [holds.first]; omega,
    by rw [holds.last]; omega⟩

theorem Holds.transport (holds : Holds geo mem free entry extents content)
    (below : ∀ extent ∈ extents, extent.start + extent.count ≤ free')
    (fat : geo.fat = true → ∀ extent ∈ extents,
      geo.fatAt other extent.start = geo.fatAt mem extent.start)
    (bytes : ∀ extent ∈ extents,
      other.read (extent.start * geo.blockSize) (extent.count * geo.blockSize) =
        mem.read (extent.start * geo.blockSize) (extent.count * geo.blockSize)) :
    Holds geo other free' entry extents content :=
  { holds with
    below := below
    chained := holds.chained.congr fat
    bytes := (fileBytes_congr (Holds.fill_le geo content) holds.nonempty bytes).trans
      holds.bytes }

theorem Holds.writeSlot (holds : Holds geo mem free entry extents content)
    (block index : Nat) (slot : List UInt8) :
    Holds geo (mem.write (geo.slotOffset block index) slot) free entry extents
      content := by
  have start := geo.slotOffset_ge block index
  refine holds.transport holds.below ?_ ?_
  · intro fat extent own
    have above := holds.above extent own
    have inFiles := holds.inFiles extent own
    have nonempty := holds.nonempty extent own
    have dir_end := geo.dir_end
    have areas : geo.fileStart * geo.blockSize ≤ geo.dirStart * geo.blockSize :=
      Nat.mul_le_mul_right _ (by omega)
    exact Geometry.fatAt_write_above fat (areas.trans start) (by omega)
  · intro extent own
    have inFiles := Nat.mul_le_mul_right geo.blockSize (holds.inFiles extent own)
    rw [Nat.add_mul] at inFiles
    exact Mem.read_write_disjoint (.inl (by omega))

end

theorem Counted.congr {superBlock superBlock' : SuperBlock}
    {files files' : Nat → Option (List UInt8)} {count : Nat}
    (counted : Counted superBlock files count)
    (min : superBlock'.minFileId = superBlock.minFileId)
    (max : superBlock'.maxFileId = superBlock.maxFileId)
    (fileCount : superBlock'.fileCount = superBlock.fileCount)
    (same : ∀ id, files' id = none ↔ files id = none) :
    Counted superBlock' files' count where
  bounds := by
    simp only [min, max, ne_eq, same]
    exact counted.bounds
  attained := by
    simp only [min, max, ne_eq, same]
    exact counted.attained
  empty := by
    simp only [min, max, same]
    exact counted.empty
  count := by
    rw [fileCount]
    exact counted.count

theorem Counted.add {superBlock : SuperBlock} {files : Nat → Option (List UInt8)}
    {count id : Nat} (counted : Counted superBlock files count)
    (positive : ∀ id, files id ≠ none → id ≠ 0) :
    Counted (superblockAddFileCount superBlock id)
      (Function.update files id (some [])) (count + 1) := by
  have others : ∀ other, Function.update files id (some []) other ≠ none ↔
      other = id ∨ files other ≠ none := by
    intro other
    by_cases same : other = id <;> simp [same]
  have fileCount : (superblockAddFileCount superBlock id).fileCount =
      ((count + 1 : Nat) : Int) := by
    simp [superblockAddFileCount, counted.count]
  by_cases any : ∃ other, files other ≠ none
  · obtain ⟨⟨least, leastStored, leastEq⟩, most, mostStored, mostEq⟩ :=
      counted.attained any
    have leastPos := positive least leastStored
    have mostPos := positive most mostStored
    have minimum : (superblockAddFileCount superBlock id).minFileId =
        (min least id : Nat) := by
      simp only [superblockAddFileCount, leastEq]
      split <;> omega
    have maximum : (superblockAddFileCount superBlock id).maxFileId =
        (max most id : Nat) := by
      simp only [superblockAddFileCount, mostEq]
      split <;> omega
    refine ⟨?_, ?_, ?_, fileCount⟩
    · intro other stored
      rw [minimum, maximum]
      rcases (others other).mp stored with rfl | old
      · omega
      · have bounds := counted.bounds other old
        omega
    · intro _
      refine ⟨⟨min least id, ?_, minimum⟩, max most id, ?_, maximum⟩
      · rw [others]
        rcases min_choice least id with same | same
        · exact .inr (same.symm ▸ leastStored)
        · exact .inl same
      · rw [others]
        rcases max_choice most id with same | same
        · exact .inr (same.symm ▸ mostStored)
        · exact .inl same
    · intro empty
      exact absurd (empty least) ((others least).mpr (.inr leastStored))
  · have none_ : ∀ other, files other = none := fun other =>
      not_not.mp fun stored => any ⟨other, stored⟩
    obtain ⟨minZero, maxZero⟩ := counted.empty none_
    have minimum : (superblockAddFileCount superBlock id).minFileId = id := by
      simp [superblockAddFileCount, minZero]
    have maximum : (superblockAddFileCount superBlock id).maxFileId = id := by
      simp [superblockAddFileCount, maxZero]
    have only : ∀ other, Function.update files id (some []) other ≠ none →
        other = id := by
      intro other stored
      rcases (others other).mp stored with same | old
      · exact same
      · exact absurd (none_ other) old
    refine ⟨?_, ?_, ?_, fileCount⟩
    · intro other stored
      rw [minimum, maximum, only other stored]
      omega
    · intro _
      exact ⟨⟨id, by simp, minimum⟩, id, by simp, maximum⟩
    · intro empty
      exact absurd (empty id) (by simp)

namespace Represents

variable {sfs base : Segment} {geo : Geometry} {files : Nat → Option (List UInt8)}
  {free free' : Nat} {chain : Nat → List Extent} {id : Nat} {content : List UInt8}

/-- The extents of the files other than `id`. -/
def Foreign (chain : Nat → List Extent) (id : Nat) (extent : Extent) : Prop :=
  ∃ other ≠ id, extent ∈ chain other

theorem held_of_mem (represents : Represents sfs geo files free chain)
    {other : Nat} {extent : Extent} (member : extent ∈ chain other) :
    ∃ entry content, Holds geo sfs.mem free entry (chain other) content := by
  cases stored : files other with
  | none =>
    rw [represents.unchained other stored] at member
    cases member
  | some content =>
    obtain ⟨block, _, index, _, _, _, holds⟩ := represents.search_stored stored
    exact ⟨_, _, holds⟩

theorem around (represents : Represents sfs geo files free chain) (id : Nat) :
    Around sfs geo (Foreign chain id) sfs free where
  type := rfl
  io := rfl
  superBlock := by rw [← represents.freeBlock]
  shaped := represents.mounted.shaped
  reliable := represents.mounted.reliable
  free_ge := represents.free_ge
  free_le := represents.free_le
  dir := fun _ _ => rfl
  fat := fun _ _ _ => rfl
  bytes := fun _ _ => rfl
  above := by
    rintro extent ⟨other, _, member⟩
    obtain ⟨_, _, holds⟩ := represents.held_of_mem member
    exact holds.above extent member
  below := by
    rintro extent ⟨other, _, member⟩
    obtain ⟨_, _, holds⟩ := represents.held_of_mem member
    exact holds.below extent member
  nonempty := by
    rintro extent ⟨other, _, member⟩
    obtain ⟨_, _, holds⟩ := represents.held_of_mem member
    exact holds.nonempty extent member

theorem replaceFile (represents : Represents base geo files free chain)
    {block index : Nat} (inDir : block < geo.dirCount) (inBlock : index < geo.perBlock)
    (slot : geo.ids base.mem block index = id) (nonzero : id ≠ 0) (small : id < 2 ^ 31)
    (around : Around base geo (Foreign chain id) sfs free')
    {entry : DirEntry} {extents : List Extent}
    (holds : Holds geo sfs.mem free' entry extents content) (entryId : entry.id = id)
    (apart : ∀ extent, Foreign chain id extent → ∀ own ∈ extents, extent.Apart own) :
    Represents (putSlot sfs geo block index entry.encode) geo
      (Function.update files id (some content)) free'
      (Function.update chain id extents) := by
  have fits := holds.fits (entryId ▸ small.trans (by decide))
  have entryHere : geo.entryAt (putSlot sfs geo block index entry.encode).mem block index =
      entry := Geometry.entryAt_write_entry fits
  have entryElse : ∀ b i, i < geo.perBlock → ¬ (b = block ∧ i = index) →
      geo.entryAt (putSlot sfs geo block index entry.encode).mem b i =
        geo.entryAt base.mem b i := by
    intro b i bound different
    exact (Geometry.entryAt_write_other (by rw [DirEntry.length_encode]) inBlock bound
      different).trans (around.dir b i)
  have ids : ∀ b < geo.dirCount, ∀ i < geo.perBlock,
      geo.ids (putSlot sfs geo block index entry.encode).mem b i =
        geo.ids base.mem b i := by
    intro b _ i bound
    by_cases here : b = block ∧ i = index
    · obtain ⟨rfl, rfl⟩ := here
      rw [Geometry.ids, entryHere, entryId, slot]
    · rw [Geometry.ids, entryElse b i bound here, Geometry.ids]
  refine
    { mounted := ⟨around.mounted.shaped, around.mounted.reliable⟩
      freeBlock := around.freeBlock
      free_ge := around.free_ge
      free_le := around.free_le
      placed := represents.placed.congr ids
      blank := ?_
      held := ?_
      stored := ?_
      unchained := ?_
      apart := ?_
      counted := ?_ }
  · intro b inRange i bound isFree
    rw [ids b inRange i bound] at isFree
    have here : ¬ (b = block ∧ i = index) := by
      rintro ⟨rfl, rfl⟩
      exact nonzero (slot.symm.trans isFree)
    rw [entryElse b i bound here]
    exact represents.blank b inRange i bound isFree
  · intro b inRange i bound used
    rw [ids b inRange i bound] at used ⊢
    by_cases here : b = block ∧ i = index
    · obtain ⟨rfl, rfl⟩ := here
      refine ⟨content, by rw [slot, Function.update_self], ?_⟩
      rw [slot, Function.update_self, entryHere]
      exact holds.writeSlot b i entry.encode
    · have different : geo.ids base.mem b i ≠ id := by
        intro same
        exact here (represents.placed.unique inDir inBlock inRange bound
          (slot ▸ nonzero) (same.trans slot.symm))
      obtain ⟨old, isOld, oldHolds⟩ := represents.held b inRange i bound used
      refine ⟨old, by rwa [Function.update_of_ne different], ?_⟩
      rw [Function.update_of_ne different, entryElse b i bound here]
      have foreign : ∀ extent ∈ chain (geo.ids base.mem b i), Foreign chain id extent :=
        fun extent own => ⟨_, different, own⟩
      exact (oldHolds.transport
        (fun extent own => around.below extent (foreign extent own))
        (fun fat extent own => around.fat fat extent (foreign extent own))
        (fun extent own => around.bytes extent (foreign extent own))).writeSlot _ _ _
  · intro other held isHeld
    by_cases same : other = id
    · subst same
      exact ⟨nonzero, small, block, inDir, index, inBlock,
        (ids block inDir index inBlock).trans slot⟩
    · rw [Function.update_of_ne same] at isHeld
      obtain ⟨otherNonzero, otherSmall, b, inRange, i, bound, otherSlot⟩ :=
        represents.stored other held isHeld
      exact ⟨otherNonzero, otherSmall, b, inRange, i, bound,
        (ids b inRange i bound).trans otherSlot⟩
  · intro other absent
    by_cases same : other = id
    · subst same
      rw [Function.update_self] at absent
      cases absent
    · rw [Function.update_of_ne same] at absent ⊢
      exact represents.unchained other absent
  · intro first second different extent inFirst own inSecond
    by_cases isFirst : first = id
    · subst isFirst
      rw [Function.update_self] at inFirst
      rw [Function.update_of_ne different.symm] at inSecond
      exact (apart own ⟨second, different.symm, inSecond⟩ extent inFirst).symm
    · rw [Function.update_of_ne isFirst] at inFirst
      by_cases isSecond : second = id
      · subst isSecond
        rw [Function.update_self] at inSecond
        exact apart extent ⟨first, isFirst, inFirst⟩ own inSecond
      · rw [Function.update_of_ne isSecond] at inSecond
        exact represents.apart first second different extent inFirst own inSecond
  · have slots : geo.usedSlots (putSlot sfs geo block index entry.encode).mem =
        geo.usedSlots base.mem := by
      apply List.filter_congr
      intro place member
      obtain ⟨inRange, bound⟩ := Geometry.mem_slots.mp member
      rw [ids place.1 inRange place.2 bound]
    rw [slots]
    have superBlock : (putSlot sfs geo block index entry.encode).superBlock =
        { base.superBlock with freeBlockNum := free' } := around.superBlock
    refine represents.counted.congr (by rw [superBlock]) (by rw [superBlock])
      (by rw [superBlock]) ?_
    intro other
    by_cases same : other = id
    · subst same
      obtain ⟨held, isHeld, _⟩ := represents.held block inDir index inBlock
        (slot ▸ nonzero)
      rw [slot] at isHeld
      simp [isHeld]
    · rw [Function.update_of_ne same]

theorem addFile (represents : Represents sfs geo files free chain)
    {block index : Nat} (found : geo.search sfs.mem id = .place block index)
    (absent : files id = none) (nonzero : id ≠ 0) (small : id < 2 ^ 31) :
    Represents
      { putSlot sfs geo block index (encodeWord 4 id) with
        superBlock := superblockAddFileCount sfs.superBlock id }
      geo (Function.update files id (some [])) free chain := by
  obtain ⟨inDir, inBlock, isFree⟩ := represents.search_absent absent found
  have entryHere : geo.entryAt (putSlot sfs geo block index (encodeWord 4 id)).mem block
      index = ⟨id, 0, 0, 0⟩ := by
    rw [putSlot, Geometry.entryAt_write_id (small.trans (by decide)),
      represents.blank block inDir index inBlock isFree]
  have entryElse : ∀ b i, i < geo.perBlock → ¬ (b = block ∧ i = index) →
      geo.entryAt (putSlot sfs geo block index (encodeWord 4 id)).mem b i =
        geo.entryAt sfs.mem b i := fun b i bound different =>
    Geometry.entryAt_write_other (by rw [length_encodeWord]; decide) inBlock bound
      different
  have idHere : geo.ids (putSlot sfs geo block index (encodeWord 4 id)).mem block index =
      id := by
    rw [Geometry.ids, entryHere]
  have idElse : ∀ b < geo.dirCount, ∀ i < geo.perBlock, ¬ (b = block ∧ i = index) →
      geo.ids (putSlot sfs geo block index (encodeWord 4 id)).mem b i =
        geo.ids sfs.mem b i := by
    intro b _ i bound different
    rw [Geometry.ids, entryElse b i bound different, Geometry.ids]
  refine
    { mounted := ⟨represents.mounted.shaped.counters _ _ _ _ _,
        represents.mounted.reliable⟩
      freeBlock := represents.freeBlock
      free_ge := represents.free_ge
      free_le := represents.free_le
      placed := represents.placed.insert found isFree nonzero idElse idHere
      blank := ?_
      held := ?_
      stored := ?_
      unchained := ?_
      apart := represents.apart
      counted := ?_ }
  · intro b inRange i bound stillFree
    have here : ¬ (b = block ∧ i = index) := by
      rintro ⟨rfl, rfl⟩
      exact nonzero (idHere.symm.trans stillFree)
    rw [idElse b inRange i bound here] at stillFree
    exact (entryElse b i bound here).trans (represents.blank b inRange i bound stillFree)
  · intro b inRange i bound used
    by_cases here : b = block ∧ i = index
    · obtain ⟨rfl, rfl⟩ := here
      refine ⟨[], by rw [idHere, Function.update_self], ?_⟩
      rw [idHere, represents.unchained id absent, entryHere]
      exact Holds.new geo _ free id
    · rw [idElse b inRange i bound here] at used ⊢
      obtain ⟨old, isOld, oldHolds⟩ := represents.held b inRange i bound used
      have different : geo.ids sfs.mem b i ≠ id := by
        intro same
        rw [same, absent] at isOld
        cases isOld
      refine ⟨old, by rwa [Function.update_of_ne different], ?_⟩
      rw [entryElse b i bound here]
      exact oldHolds.writeSlot block index _
  · intro other held isHeld
    by_cases same : other = id
    · subst same
      exact ⟨nonzero, small, block, inDir, index, inBlock, idHere⟩
    · rw [Function.update_of_ne same] at isHeld
      obtain ⟨otherNonzero, otherSmall, b, inRange, i, bound, slot⟩ :=
        represents.stored other held isHeld
      have here : ¬ (b = block ∧ i = index) := by
        rintro ⟨rfl, rfl⟩
        exact otherNonzero (slot.symm.trans isFree)
      exact ⟨otherNonzero, otherSmall, b, inRange, i, bound,
        (idElse b inRange i bound here).trans slot⟩
  · intro other stillAbsent
    by_cases same : other = id
    · rw [same, Function.update_self] at stillAbsent
      cases stillAbsent
    · rw [Function.update_of_ne same] at stillAbsent
      exact represents.unchained other stillAbsent
  · have slots : (geo.usedSlots (putSlot sfs geo block index (encodeWord 4 id)).mem).Perm
        ((block, index) :: geo.usedSlots sfs.mem) := by
      have fresh : (block, index) ∉ geo.usedSlots sfs.mem := by
        rw [Geometry.mem_usedSlots]
        exact fun used => used.2.2 isFree
      rw [List.perm_ext_iff_of_nodup Geometry.nodup_usedSlots
        (List.nodup_cons.mpr ⟨fresh, Geometry.nodup_usedSlots⟩)]
      rintro ⟨b, i⟩
      rw [List.mem_cons, Geometry.mem_usedSlots, Geometry.mem_usedSlots, Prod.mk.injEq]
      by_cases here : b = block ∧ i = index
      · obtain ⟨rfl, rfl⟩ := here
        simp [inDir, inBlock, idHere, nonzero]
      · constructor
        · rintro ⟨inRange, bound, used⟩
          exact .inr ⟨inRange, bound, idElse b inRange i bound here ▸ used⟩
        · rintro (isHere | ⟨inRange, bound, used⟩)
          · exact absurd isHere here
          · exact ⟨inRange, bound, (idElse b inRange i bound here).symm ▸ used⟩
    rw [slots.length_eq]
    refine represents.counted.add ?_
    intro other isStored
    obtain ⟨held, isHeld⟩ := Option.ne_none_iff_exists'.mp isStored
    exact (represents.stored other held isHeld).1

end Represents

end Wisebot.Sfs
