import Wisebot.Sfs.FileSet

namespace Wisebot.Sfs

open Wisebot.Lib

/-! What a failed append leaves behind, and the byte counter of the super block. -/

/-- An append that `__extend_block` refuses: without a table, to a file whose
last block is not followed by the free ones, of more bytes than fit that block. -/
def Refused (sfs : Segment) (fileId : Nat) (buf : List UInt8) : Prop :=
  sfs.superBlock.hasFat = false ∧ sfs.superBlock.freeBlockNum ≤ sfs.superBlock.endFileBlock ∧
    ∃ entry, sfsExistFile sfs fileId = some (.ok entry) ∧ entry.size ≠ 0 ∧
      ((entry.firstBlockNum + blocksFor entry.size sfs.superBlock.blockSize.toNat : Nat) : Int) ≠
        sfs.superBlock.freeBlockNum ∧
      blocksFor entry.size sfs.superBlock.blockSize.toNat * sfs.superBlock.blockSize.toNat <
        entry.size + buf.length

/-- The file is as it was, and so is what later appends make of it. -/
structure Unharmed (before after : Segment) (fileId : Nat) : Prop where
  info : sfsGetInfo after fileId = sfsGetInfo before fileId
  read : ∀ offset size, sfsRead after fileId offset size = sfsRead before fileId offset size
  later : ∀ buf written next, sfsAppend after fileId buf = some (.ok written, next) →
    ∃ next', sfsAppend before fileId buf = some (.ok written, next') ∧
      ∀ offset size, sfsRead next fileId offset size = sfsRead next' fileId offset size

def TotalAgrees (sfs : Segment) : Prop :=
  sfs.superBlock.fileTotalByte = (((dirEntries sfs).map DirEntry.size).sum : Nat)

/-- Every state of a run counts the bytes of its files, and a failed append
leaves its file unharmed. -/
structure AppendsAccounted (start : Segment) (calls : List (Nat × List UInt8)) : Prop where
  total : ∀ front back results reached, calls = front ++ back →
    runAppends start front = some (results, reached) → TotalAgrees reached
  failed : ∀ front id buf back results before after, calls = front ++ (id, buf) :: back →
    runAppends start front = some (results, before) →
    (∃ entry, sfsExistFile before id = some (.ok entry)) →
    sfsAppend before id buf = some (.error .fail, after) → Unharmed before after id

def NoneRefused (start : Segment) (calls : List (Nat × List UInt8)) : Prop :=
  ∀ front id buf back results before, calls = front ++ (id, buf) :: back →
    runAppends start front = some (results, before) → ¬ Refused before id buf

section

variable {base sfs : Segment} {geo : Geometry} {foreign : Extent → Prop} {free : Nat}
  {inode : Inode} {content buf : List UInt8}

theorem AtEnd.extendBlock_stuck (atEnd : AtEnd base geo foreign sfs free inode content)
    (flat : geo.fat = false) (stuck : ¬ Frontier free inode) (need : Nat) :
    Sfs.extendBlock sfs inode need =
      some (if geo.dirStart ≤ free then .segmentFull else .fail, inode, sfs) := by
  split
  case isTrue full => exact atEnd.extendBlock_full full need
  case isFalse room =>
    cases atEnd with
    | blank growing block => exact absurd (.inl block) stuck
    | tail front last used growing tail filled =>
      have above := growing.laid.above last (by simp)
      have files := geo.files_behind_header
      simp only [superBlockCount] at files
      have apart : last.start + last.count ≠ free := by
        intro touches
        refine stuck (.inr ?_)
        rw [tail.block, tail.fatEntry]
        exact touches
      rw [Sfs.extendBlock, tail.block, tail.fatEntry,
        growing.toAround.mounted.fatAllocate_refused ⟨last.count, 0⟩ need
          growing.toAround.freeBlock (Nat.lt_of_not_le room) flat (by omega) apart]

theorem AtEnd.appendFileLoop_stopped (atEnd : AtEnd base geo foreign sfs free inode content)
    (flat : geo.fat = false) (stuck : ¬ Frontier free inode)
    (full : inode.offsetInSfsBlocks = inode.endOfSfsBlocks) (some_ : buf ≠ [])
    (fuel total : Nat) :
    Sfs.appendFileLoop (fuel + 1) sfs inode total buf =
      some (if geo.dirStart ≤ free then .segmentFull else .fail, total, inode, sfs) := by
  rw [Sfs.appendFileLoop, if_neg some_]
  simp only [if_pos full, atEnd.extendBlock_stuck flat stuck]
  by_cases segmentFull : geo.dirStart ≤ free
  · simp only [if_pos segmentFull]
  · simp only [if_neg segmentFull]

/-- An append to a file that cannot be extended fills its last block and stops,
unless all bytes fit. -/
theorem AtEnd.appendFileLoop_stuck (atEnd : AtEnd base geo foreign sfs free inode content)
    (flat : geo.fat = false) (stuck : ¬ Frontier free inode) {fuel : Nat}
    (enough : buf.length < fuel) (total : Nat) :
    ∃ written inode' sfs', Sfs.appendFileLoop fuel sfs inode total buf = some
      (if buf.length ≤ inode.endOfSfsBlocks - inode.offsetInSfsBlocks then .success
        else if geo.dirStart ≤ free then .segmentFull else .fail, written, inode', sfs') := by
  obtain ⟨fuel, rfl⟩ := Nat.exists_eq_succ_of_ne_zero (Nat.ne_of_gt (Nat.zero_lt_of_lt enough))
  by_cases done : buf = []
  · subst done
    exact ⟨total, inode, sfs, by simp [Sfs.appendFileLoop]⟩
  have some_ : 0 < buf.length := List.length_pos_iff.mpr done
  by_cases full : inode.offsetInSfsBlocks = inode.endOfSfsBlocks
  · refine ⟨total, inode, sfs, ?_⟩
    rw [if_neg (by omega)]
    exact atEnd.appendFileLoop_stopped flat stuck full done fuel total
  · cases atEnd with
    | blank growing block fatEntry offset end_eq => exact absurd (offset.trans end_eq.symm) full
    | tail front last used growing tail filled =>
      have used_le := tail.used_le
      have offset := tail.offset
      have end_eq := tail.end_eq
      obtain ⟨sfs₂, wrote, next⟩ := growing.writeRound buf tail (by omega)
      have blockSize : sfs.superBlock.blockSize.toNat = geo.blockSize := by
        rw [growing.toAround.mounted.shaped.blockSize, Int.toNat_natCast]
      have round : Sfs.appendFileLoop (fuel + 1) sfs inode total buf =
          Sfs.appendFileLoop fuel sfs₂ (inode.behind (inode.writable buf))
            (total + inode.writable buf) (buf.drop (inode.writable buf)) := by
        rw [Sfs.appendFileLoop, if_neg done]
        simp only [if_neg full, blockSize]
        rw [Inode.writable] at wrote
        rw [wrote]
        rfl
      obtain ⟨fuel, rfl⟩ := Nat.exists_eq_succ_of_ne_zero (show fuel ≠ 0 by omega)
      rw [round]
      by_cases fits : buf.length ≤ inode.endOfSfsBlocks - inode.offsetInSfsBlocks
      · have all : buf.drop (inode.writable buf) = [] := by
          rw [List.drop_eq_nil_iff, Inode.writable]
          omega
        rw [all, if_pos fits]
        exact ⟨_, _, _, by rw [Sfs.appendFileLoop, if_pos rfl]⟩
      · have rest : buf.drop (inode.writable buf) ≠ [] := by
          rw [ne_eq, List.drop_eq_nil_iff, Inode.writable]
          omega
        rw [if_neg fits, next.appendFileLoop_stopped flat stuck (by
          simp only [Inode.behind, Inode.writable]
          omega) rest]
        exact ⟨_, _, _, rfl⟩

end

theorem DirOp.outcome_superBlock {op : DirOp} {sfs sfs' : Segment} {geo : Geometry} {fileId : Nat}
    {stop : Probing.Stop} {result : DirResult}
    (run : op.outcome sfs geo fileId stop = some (result, sfs')) :
    sfs'.superBlock = sfs.superBlock := by
  cases stop with
  | outside => cases run
  | exhausted =>
    obtain ⟨-, rfl⟩ := Prod.mk.inj (Option.some.inj run)
    rfl
  | place block index =>
    obtain ⟨-, rfl⟩ := Prod.mk.inj (Option.some.inj run)
    cases op with
    | find =>
      show (if _ then _ else _ : DirResult × Segment).2.superBlock = _
      split <;> rfl
    | add =>
      show (if _ then _ else _ : DirResult × Segment).2.superBlock = _
      split <;> rfl
    | update changed =>
      show (if _ then _ else _ : DirResult × Segment).2.superBlock = _
      split <;> rfl

section

variable {sfs sfs' : Segment} {geo : Geometry} {files : Nat → Option (List UInt8)}
  {free : Nat} {chain : Nat → List Extent} {id : Nat} {content buf : List UInt8}
  {result : Except Failure Nat}

/-- The counter moves by what the append returns, and a file that cannot be
extended makes it fail when there are free blocks and too many bytes. -/
theorem Represents.appendExisting_result (represents : Represents sfs geo files free chain)
    (stored : files id = some content)
    (run : Sfs.appendExisting sfs id buf = some (result, sfs')) :
    sfs'.superBlock.fileTotalByte = sfs.superBlock.fileTotalByte + writeByteOf result ∧
      (geo.fat = false → ¬ AtFrontier free (chain id) →
        (result = .error .fail ↔ free < geo.dirStart ∧ geo.slack content < buf.length)) := by
  obtain ⟨opened, openRun, _, openHolds⟩ := represents.openFile_stored stored
  obtain ⟨inode, sought, _, atEnd, frontier⟩ := represents.seekFileEnd openHolds
  obtain ⟨_, inDir, _⟩ := represents.search_stored stored
  obtain ⟨ret, written, inode', sfs₁, free', loop, appended⟩ :=
    atEnd.appendFileLoop (Nat.lt_succ_self buf.length) 0
  obtain ⟨_, around, -⟩ := appended.atEnd.finish
  have hasDir : 0 < geo.dirCount := Nat.zero_lt_of_lt inDir
  simp only [Sfs.appendExisting, openRun, sought, Sfs.appendFile, loop, dirUpdateEntry,
    around.mounted.dirFindEntry _ _ hasDir] at run
  cases outcome : DirOp.outcome (.update { inode'.dirEntry with
      size := inode'.dirEntry.size + (0 + written) }) sfs₁ geo inode'.dirEntry.id
        (geo.search sfs₁.mem inode'.dirEntry.id) with
  | none =>
    rw [outcome] at run
    cases run
  | some updated =>
    obtain ⟨_, sfs₂⟩ := updated
    have kept := DirOp.outcome_superBlock outcome
    have finished : result = (if ret = .success ∨ ret = .segmentFull then .ok (0 + written)
        else .error .fail) ∧ sfs'.superBlock =
          superblockUpdateWriteByte sfs₂.superBlock (writeByteOf result) := by
      rw [outcome] at run
      by_cases done : ret = .success ∨ ret = .segmentFull
      · simp only [if_pos done] at run ⊢
        obtain ⟨rfl, rfl⟩ := Prod.mk.inj (Option.some.inj run)
        exact ⟨rfl, rfl⟩
      · simp only [if_neg done] at run ⊢
        obtain ⟨rfl, rfl⟩ := Prod.mk.inj (Option.some.inj run)
        exact ⟨rfl, rfl⟩
    obtain ⟨isResult, superBlock⟩ := finished
    constructor
    · rw [superBlock, superblockUpdateWriteByte, kept, around.superBlock]
    · intro flat stuck
      have notFrontier : ¬ Frontier free inode := fun touches => stuck (frontier.mpr touches)
      obtain ⟨_, _, _, stuckRun⟩ :=
        atEnd.appendFileLoop_stuck flat notFrontier (Nat.lt_succ_self buf.length) 0
      rw [loop] at stuckRun
      have isRet := congrArg Prod.fst (Option.some.inj stuckRun)
      have slack := atEnd.room_eq
      rw [Geometry.room, Geometry.roomFor, Nat.add_right_cancel_iff] at slack
      simp only [slack] at isRet
      rw [isResult, isRet]
      by_cases fits : buf.length ≤ geo.slack content
      · simp [fits]
      · by_cases segmentFull : geo.dirStart ≤ free
        · simp [fits, segmentFull]
        · simp [fits, segmentFull]
          omega

theorem Represents.refused_iff (represents : Represents sfs geo files free chain)
    (stored : files id = some content) :
    Refused sfs id buf ↔ geo.fat = false ∧ free < geo.dirStart ∧
      ¬ AtFrontier free (chain id) ∧ geo.slack content < buf.length := by
  obtain ⟨entry, found, _, holds⟩ := represents.sfsExistFile_stored stored
  have shaped := represents.mounted.shaped
  have needed : blocksFor content.length geo.blockSize * geo.blockSize =
      content.length + geo.slack content := blocksFor_mul geo.blockSize_pos
  have outside : geo.fat = false → (¬ AtFrontier free (chain id) ↔ entry.size ≠ 0 ∧
      entry.firstBlockNum + blocksFor entry.size geo.blockSize ≠ free) := by
    intro flat
    have chained := holds.chained
    rw [Chained, flat, if_neg Bool.false_ne_true] at chained
    have blocks := holds.blocks
    have first := holds.first
    have nonempty := holds.nonempty
    have bytes := holds.bytes
    rw [holds.size]
    generalize chain id = extents at chained blocks first nonempty bytes ⊢
    rcases extents with _ | ⟨extent, _ | ⟨another, others⟩⟩
    · have empty : content = [] := bytes.symm
      simp [AtFrontier, empty]
    · have count : extent.count = blocksFor content.length geo.blockSize := by
        simpa [Extent.blocks] using blocks
      have start : entry.firstBlockNum = extent.start := first
      have some_ : content.length ≠ 0 := by
        intro zero
        have used := nonempty extent (by simp)
        rw [count, zero, blocksFor_zero geo.blockSize_pos] at used
        exact absurd used (lt_irrefl 0)
      have last : AtFrontier free [extent] ↔ extent.start + extent.count = free := by
        constructor
        · intro touches
          exact touches [] extent rfl
        · rintro touches front last same
          obtain ⟨_, lasts⟩ := List.append_inj' (show [] ++ [extent] = front ++ [last] from same) rfl
          obtain rfl := List.singleton_inj.mp lasts
          exact touches
      rw [last, start, ← count]
      simp [some_]
    · simp at chained
  have size := holds.size
  rw [Refused, found, shaped.hasFat, represents.freeBlock, shaped.endFileBlock, shaped.blockSize,
    Int.toNat_natCast]
  constructor
  · rintro ⟨flat, room, entry', same, some_, apart, beyond⟩
    obtain rfl := Except.ok.inj (Option.some.inj same)
    rw [size, needed] at beyond
    exact ⟨flat, by omega, (outside flat).mpr ⟨some_, by exact_mod_cast apart⟩, by omega⟩
  · rintro ⟨flat, room, stuck, beyond⟩
    obtain ⟨some_, apart⟩ := (outside flat).mp stuck
    refine ⟨flat, by omega, entry, rfl, some_, by exact_mod_cast apart, ?_⟩
    rw [size, needed]
    omega

theorem Represents.not_refused (represents : Represents sfs geo files free chain)
    (absent : files id = none) : ¬ Refused sfs id buf := by
  rintro ⟨-, -, entry, found, -⟩
  rcases represents.sfsExistFile_absent absent with missing | ⟨undefined, -⟩
  · rw [missing] at found
    cases found
  · rw [undefined] at found
    cases found

theorem Represents.sfsAppend_new (represents : Represents sfs geo files free chain)
    (absent : files id = none) (nonzero : id ≠ 0) {block index : Nat}
    (found : geo.search sfs.mem id = .place block index) (buf : List UInt8) :
    Sfs.sfsAppend sfs id buf = Sfs.appendExisting
      { putSlot sfs geo block index (encodeWord 4 id) with
        superBlock := superblockAddFileCount sfs.superBlock id } id buf := by
  obtain ⟨inDir, _, isFree⟩ := represents.search_absent absent found
  have hasDir : 0 < geo.dirCount := Nat.zero_lt_of_lt inDir
  rw [Geometry.ids] at isFree
  rw [Sfs.sfsAppend, if_neg (by omega)]
  rcases represents.sfsExistFile_absent absent with missing | ⟨-, noDir | outside⟩
  · rw [missing]
    simp only [dirAddEntry, represents.mounted.dirFindEntry id .add hasDir, found, DirOp.outcome,
      DirOp.atEntry, isFree, if_true]
    rfl
  · omega
  · rw [found] at outside
    cases outside

theorem Represents.sfsAppend_step (represents : Represents sfs geo files free chain)
    (small : id < 2 ^ 31) (run : Sfs.sfsAppend sfs id buf = some (result, sfs')) :
    (sfs' = sfs ∧ files id = none) ∨
    ∃ content filesBefore written free' chain',
      Grown geo filesBefore free chain id content buf result sfs sfs' written free' chain' ∧
      (∀ other, other ≠ id → filesBefore other = files other) ∧ bytesOf files id = content ∧
      sfs'.superBlock.fileTotalByte = sfs.superBlock.fileTotalByte + writeByteOf result ∧
      (result = .error .fail ↔ Refused sfs id buf) := by
  cases stored : files id with
  | some content =>
    obtain ⟨nonzero, -⟩ := represents.stored id content stored
    obtain ⟨_, found, -⟩ := represents.sfsExistFile_stored stored
    obtain ⟨_, _, written, free', chain', appended, grown⟩ :=
      represents.sfsAppend_stored stored buf
    rw [run] at appended
    obtain ⟨rfl, rfl⟩ := Prod.mk.inj (Option.some.inj appended)
    rw [Sfs.sfsAppend, if_neg (by omega), found] at run
    obtain ⟨total, fails⟩ := represents.appendExisting_result stored run
    refine .inr ⟨content, files, written, free', chain', grown, fun _ _ => rfl,
      by rw [bytesOf, stored]; rfl, total, ?_⟩
    rw [represents.refused_iff stored]
    constructor
    · intro failed
      have flat : geo.fat = false := by
        rcases grown.outcome with ⟨done, -⟩ | ⟨-, flat⟩
        · rw [failed] at done
          cases done
        · exact flat
      have stuck : ¬ AtFrontier free (chain id) := by
        intro touches
        have done := (grown.frontier touches).2
        rw [failed] at done
        cases done
      obtain ⟨room, beyond⟩ := (fails flat stuck).mp failed
      exact ⟨flat, room, stuck, beyond⟩
    · rintro ⟨flat, room, stuck, beyond⟩
      exact (fails flat stuck).mpr ⟨room, beyond⟩
  | none =>
    rcases Nat.eq_zero_or_pos id with rfl | positive
    · rw [Sfs.sfsAppend, if_pos Nat.one_pos] at run
      obtain ⟨-, rfl⟩ := Prod.mk.inj (Option.some.inj run)
      exact .inl ⟨rfl, rfl⟩
    · rcases represents.sfsAppend_absent stored (by omega) small buf with
        ⟨undefined, -⟩ | ⟨unchanged, -⟩ |
          ⟨block, index, _, _, written, free', chain', found, appended, grown⟩
      · rw [run] at undefined
        cases undefined
      · rw [run] at unchanged
        obtain ⟨-, rfl⟩ := Prod.mk.inj (Option.some.inj unchanged)
        exact .inl ⟨rfl, rfl⟩
      · rw [run] at appended
        obtain ⟨rfl, rfl⟩ := Prod.mk.inj (Option.some.inj appended)
        have added := represents.addFile found stored (by omega) small
        rw [represents.sfsAppend_new stored (by omega) found] at run
        obtain ⟨total, -⟩ :=
          added.appendExisting_result (Function.update_self id (some []) files) run
        have touches : AtFrontier free (chain id) := by
          rw [represents.unchained id stored]
          intro front last same
          simp at same
        refine .inr ⟨[], _, written, free', chain', grown,
          fun other different => Function.update_of_ne different _ _,
          by rw [bytesOf, stored]; rfl, total, ?_⟩
        simp only [(grown.frontier touches).2, represents.not_refused stored, iff_false]
        intro same
        cases same

theorem Represents.sfsAppend_kept (represents : Represents sfs geo files free chain)
    (small : id < 2 ^ 31) (run : Sfs.sfsAppend sfs id buf = some (result, sfs')) :
    ∃ files' free' chain', Represents sfs' geo files' free' chain' := by
  rcases represents.sfsAppend_step small run with ⟨rfl, -⟩ | ⟨_, _, _, _, _, grown, -⟩
  · exact ⟨files, free, chain, represents⟩
  · exact ⟨_, _, _, grown.represents⟩

structure Tallied (sfs : Segment) (geo : Geometry) (files : Nat → Option (List UInt8))
    (free : Nat) (chain : Nat → List Extent) : Prop where
  represents : Represents sfs geo files free chain
  total : sfs.superBlock.fileTotalByte =
    (((geo.fileIds sfs.mem).map fun id => (Represents.bytesOf files id).length).sum : Nat)

theorem Represents.sizes (represents : Represents sfs geo files free chain) :
    (dirEntries sfs).map DirEntry.size =
      (geo.fileIds sfs.mem).map fun id => (bytesOf files id).length := by
  have ids : geo.fileIds sfs.mem = (dirEntries sfs).map DirEntry.id := by
    rw [dirEntries_eq represents.mounted, List.map_map]
    rfl
  rw [ids, List.map_map]
  refine List.map_congr_left fun entry member => ?_
  obtain ⟨content, isContent, holds⟩ := represents.of_mem_dirEntries member
  rw [Function.comp_apply, bytesOf, isContent, holds.size]
  rfl

theorem Represents.totalAgrees_iff (represents : Represents sfs geo files free chain) :
    TotalAgrees sfs ↔ Tallied sfs geo files free chain := by
  rw [TotalAgrees, represents.sizes]
  exact ⟨fun total => ⟨represents, total⟩, fun tallied => tallied.total⟩

theorem Tallied.sfsAppend (tallied : Tallied sfs geo files free chain) (small : id < 2 ^ 31)
    (accepted : ¬ Refused sfs id buf) (run : Sfs.sfsAppend sfs id buf = some (result, sfs')) :
    ∃ files' free' chain', Tallied sfs' geo files' free' chain' := by
  rcases tallied.represents.sfsAppend_step small run with
    ⟨rfl, -⟩ | ⟨content, _, written, free', chain', grown, before, isContent, total, fails⟩
  · exact ⟨files, free, chain, tallied⟩
  · have sums := grown.sum_weight List.length rfl tallied.represents before isContent
    have length : (content ++ buf.take written).length = content.length + written := by
      rw [List.length_append, List.length_take, Nat.min_eq_left grown.written_le]
    have returned : result = .ok written := by
      rcases grown.outcome with ⟨done, -⟩ | ⟨failed, -⟩
      · exact done
      · exact absurd (fails.mp failed) accepted
    refine ⟨_, free', chain', grown.represents, ?_⟩
    rw [total, tallied.total, returned, writeByteOf]
    omega

theorem Tallied.not_totalAgrees (tallied : Tallied sfs geo files free chain) (small : id < 2 ^ 31)
    (refused : Refused sfs id buf) (run : Sfs.sfsAppend sfs id buf = some (result, sfs')) :
    ¬ TotalAgrees sfs' := by
  rcases tallied.represents.sfsAppend_step small run with
    ⟨-, absent⟩ | ⟨content, _, written, free', chain', grown, before, isContent, total, fails⟩
  · exact absurd refused (tallied.represents.not_refused absent)
  · have sums := grown.sum_weight List.length rfl tallied.represents before isContent
    have length : (content ++ buf.take written).length = content.length + written := by
      rw [List.length_append, List.length_take, Nat.min_eq_left grown.written_le]
    rw [grown.represents.totalAgrees_iff]
    intro counted
    have after := counted.total
    rw [total, tallied.total, fails.mpr refused, writeByteOf] at after
    omega

theorem runAppends_cons {start reached : Segment} {call : Nat × List UInt8}
    {calls : List (Nat × List UInt8)} {results : List (Except Failure Nat)}
    (run : runAppends start (call :: calls) = some (results, reached)) :
    ∃ result next rest, Sfs.sfsAppend start call.1 call.2 = some (result, next) ∧
      runAppends next calls = some (rest, reached) ∧ results = result :: rest := by
  obtain ⟨id, buf⟩ := call
  rw [runAppends] at run
  split at run
  next => cases run
  next result next appended =>
    split at run
    next => cases run
    next rest final later =>
      obtain ⟨rfl, rfl⟩ := Prod.mk.inj (Option.some.inj run)
      exact ⟨result, next, rest, appended, later, rfl⟩

theorem runAppends_snoc {start before after : Segment} {front : List (Nat × List UInt8)}
    {results : List (Except Failure Nat)} (run : runAppends start front = some (results, before))
    (appended : Sfs.sfsAppend before id buf = some (result, after)) :
    runAppends start (front ++ [(id, buf)]) = some (results ++ [result], after) := by
  induction front generalizing start results with
  | nil =>
    obtain ⟨rfl, rfl⟩ := Prod.mk.inj (Option.some.inj run)
    rw [List.nil_append, runAppends, appended]
    rfl
  | cons call front induction =>
    obtain ⟨first, next, rest, here, later, rfl⟩ := runAppends_cons run
    obtain ⟨id', buf'⟩ := call
    rw [List.cons_append, runAppends, here]
    simp only [induction later]
    rfl

theorem Represents.runAppends_kept (represents : Represents sfs geo files free chain)
    {calls : List (Nat × List UInt8)} (small : ∀ call ∈ calls, call.1 < 2 ^ 31)
    {results : List (Except Failure Nat)} (run : runAppends sfs calls = some (results, sfs')) :
    ∃ files' free' chain', Represents sfs' geo files' free' chain' := by
  induction calls generalizing sfs files free chain results with
  | nil =>
    obtain ⟨-, rfl⟩ := Prod.mk.inj (Option.some.inj run)
    exact ⟨files, free, chain, represents⟩
  | cons call calls induction =>
    obtain ⟨_, next, rest, here, later, -⟩ := runAppends_cons run
    obtain ⟨_, _, _, kept⟩ := represents.sfsAppend_kept (small call List.mem_cons_self) here
    exact induction kept (fun other member => small other (List.mem_cons_of_mem _ member)) later

theorem Tallied.runAppends (tallied : Tallied sfs geo files free chain)
    {calls : List (Nat × List UInt8)} (small : ∀ call ∈ calls, call.1 < 2 ^ 31)
    (accepted : NoneRefused sfs calls) {results : List (Except Failure Nat)}
    (run : Sfs.runAppends sfs calls = some (results, sfs')) :
    ∃ files' free' chain', Tallied sfs' geo files' free' chain' := by
  induction calls generalizing sfs files free chain results with
  | nil =>
    obtain ⟨-, rfl⟩ := Prod.mk.inj (Option.some.inj run)
    exact ⟨files, free, chain, tallied⟩
  | cons call calls induction =>
    obtain ⟨first, next, rest, here, later, -⟩ := runAppends_cons run
    obtain ⟨id, buf⟩ := call
    obtain ⟨_, _, _, kept⟩ := tallied.sfsAppend (small _ List.mem_cons_self)
      (accepted [] id buf calls [] sfs rfl rfl) here
    refine induction kept (fun other member => small other (List.mem_cons_of_mem _ member)) ?_
      later
    intro front other bytes back results before split reached
    refine accepted ((id, buf) :: front) other bytes back (first :: results) before
      (by rw [split]; rfl) ?_
    rw [Sfs.runAppends, here]
    simp only [reached]

theorem NoneRefused.front {start : Segment} {front back : List (Nat × List UInt8)}
    (accepted : NoneRefused start (front ++ back)) : NoneRefused start front := by
  intro first id buf rest results before split run
  exact accepted first id buf (rest ++ back) results before (by rw [split]; simp) run

theorem Represents.noneRefused (represents : Represents sfs geo files free chain)
    (fat : geo.fat = true) {calls : List (Nat × List UInt8)}
    (small : ∀ call ∈ calls, call.1 < 2 ^ 31) : NoneRefused sfs calls := by
  rintro front id buf back results before rfl run ⟨flat, -⟩
  obtain ⟨_, _, _, kept⟩ := represents.runAppends_kept
    (fun call own => small call (List.mem_append_left _ own)) run
  rw [kept.mounted.shaped.hasFat, fat] at flat
  cases flat

theorem Tallied.appendsAccounted_iff (tallied : Tallied sfs geo files free chain)
    {calls : List (Nat × List UInt8)} (small : ∀ call ∈ calls, call.1 < 2 ^ 31) :
    AppendsAccounted sfs calls ↔ NoneRefused sfs calls := by
  constructor
  · intro accounted front id buf back results before split run refused
    have member : (id, buf) ∈ calls := by
      rw [split]
      simp
    have agrees := accounted.total front ((id, buf) :: back) results before split run
    obtain ⟨files₁, free₁, chain₁, represents⟩ := tallied.represents.runAppends_kept (fun call own =>
      small call (by rw [split]; exact List.mem_append_left _ own)) run
    have counted := represents.totalAgrees_iff.mp agrees
    obtain ⟨content, stored⟩ : ∃ content, files₁ id = some content := by
      by_contra none_
      have absent : files₁ id = none := Option.eq_none_iff_forall_ne_some.mpr fun content same =>
        none_ ⟨content, same⟩
      exact represents.not_refused absent refused
    obtain ⟨result, after, _, _, _, appended, -⟩ := represents.sfsAppend_stored stored buf
    refine counted.not_totalAgrees (small (id, buf) member) refused appended ?_
    exact accounted.total (front ++ [(id, buf)]) back _ after (by rw [split]; simp)
      (runAppends_snoc run appended)
  · intro accepted
    have counted : ∀ front back results reached, calls = front ++ back →
        Sfs.runAppends sfs front = some (results, reached) →
        ∃ files' free' chain', Tallied reached geo files' free' chain' := by
      rintro front back results reached rfl run
      exact tallied.runAppends (fun call own => small call (List.mem_append_left _ own))
        accepted.front run
    constructor
    · intro front back results reached split run
      obtain ⟨_, _, _, kept⟩ := counted front back results reached split run
      exact kept.represents.totalAgrees_iff.mpr kept
    · rintro front id buf back results before after split run ⟨entry, found⟩ failed
      obtain ⟨files₁, _, _, kept⟩ := counted front ((id, buf) :: back) results before split run
      have member : (id, buf) ∈ calls := by
        rw [split]
        simp
      rcases kept.represents.sfsAppend_step (small (id, buf) member) failed with
        ⟨-, absent⟩ | ⟨_, _, _, _, _, _, _, _, _, fails⟩
      · rcases kept.represents.sfsExistFile_absent absent with missing | ⟨undefined, -⟩
        · rw [missing] at found
          cases found
        · rw [undefined] at found
          cases found
      · exact absurd (fails.mp rfl) (accepted front id buf back results before split run)

end

theorem dirFindEntry_without_blocks {start : Segment} (size : start.superBlock.size ≤ 0)
    (fileId : Nat) (op : DirOp) : dirFindEntry start fileId op = none := by
  have noBlock : ∀ offset count, sfsBlockRead start offset count = none := by
    intro offset count
    rw [sfsBlockRead, if_neg]
    rintro ⟨behind, inside⟩
    simp only [sizeofSuperBlock] at behind
    omega
  rw [dirFindEntry]
  split
  · rfl
  · unfold dirFindFrom
    simp only [noBlock]

theorem runAppends_without_blocks {start : Segment} (size : start.superBlock.size ≤ 0)
    (noFiles : start.superBlock.minFileId = 0 ∧ start.superBlock.maxFileId = 0)
    {calls : List (Nat × List UInt8)} {results : List (Except Failure Nat)} {reached : Segment}
    (run : runAppends start calls = some (results, reached)) : reached = start := by
  induction calls generalizing results with
  | nil => exact (Prod.mk.inj (Option.some.inj run)).2.symm
  | cons call calls induction =>
    obtain ⟨result, next, rest, here, later, -⟩ := runAppends_cons run
    rw [sfsAppend] at here
    split at here
    case isTrue =>
      obtain ⟨-, rfl⟩ := Prod.mk.inj (Option.some.inj here)
      exact induction later
    case isFalse positive =>
      have missing : sfsExistFile start call.1 = some (.error .fileNotExists) := by
        rw [sfsExistFile, if_neg]
        rw [noFiles.1, noFiles.2]
        omega
      rw [missing] at here
      simp only [dirAddEntry, dirFindEntry_without_blocks size] at here
      cases here

theorem formattedSuperBlock_size (option : UInt32) (size blockSize : Int) :
    (formattedSuperBlock option size blockSize).size = size ∧
      (formattedSuperBlock option size blockSize).fileTotalByte = 0 := by
  obtain ⟨_, _, _, table⟩ := fatInitSuperblock_eq (blankSuperBlock option size blockSize)
  simp only [formattedSuperBlock, dirInitSuperblock, table]
  exact ⟨rfl, rfl⟩

theorem sfsFormat_tallied {sfs formatted : Segment} (reliable : sfs.io.Reliable)
    {option : UInt32} {size blockSize : Int} (positive : 0 < size) (sizeFits : size < 2 ^ 31)
    (run : sfsFormat sfs option size blockSize = some (.success, formatted)) (type : OpenType) :
    ∃ geo, Tallied { formatted with type := type } geo (fun _ => none) geo.fileStart
      (fun _ => []) := by
  obtain ⟨geo, _, blank, -⟩ := sfsFormat_represents reliable positive sizeFits run
  have none_ : geo.fileIds formatted.mem = [] := by
    rw [List.eq_nil_iff_forall_not_mem]
    intro id member
    exact blank.mem_fileIds.mp member rfl
  refine ⟨geo, blank.reopen type, ?_⟩
  rw [none_]
  show formatted.superBlock.fileTotalByte = 0
  rw [sfsFormat_superBlock run]
  exact (formattedSuperBlock_size option size blockSize).2

/-- In a run on a formatted segment a failed append leaves its file unharmed and
the byte counter is the sum of the sizes, just when no append is refused. -/
theorem sfsFormat_appendsAccounted_iff {sfs formatted : Segment} (reliable : sfs.io.Reliable)
    {option : UInt32} {size blockSize : Int} (sizeFits : size < 2 ^ 31)
    (run : sfsFormat sfs option size blockSize = some (.success, formatted)) (type : OpenType)
    (calls : List (Nat × List UInt8)) (small : ∀ call ∈ calls, call.1 < 2 ^ 31) :
    AppendsAccounted { formatted with type := type } calls ↔
      NoneRefused { formatted with type := type } calls := by
  rcases lt_or_ge 0 size with positive | empty
  · obtain ⟨geo, tallied⟩ := sfsFormat_tallied reliable positive sizeFits run type
    exact tallied.appendsAccounted_iff small
  · have isFormatted := sfsFormat_superBlock run
    obtain ⟨isSize, noBytes⟩ := formattedSuperBlock_size option size blockSize
    obtain ⟨noMinimum, noMaximum, -⟩ := formattedSuperBlock_counters option size blockSize
    obtain ⟨start, isStart⟩ : ∃ start : Segment, start = { formatted with type := type } :=
      ⟨_, rfl⟩
    have superBlock : start.superBlock = formattedSuperBlock option size blockSize := by
      rw [isStart, ← isFormatted]
    rw [← isStart]
    have noBlocks : start.superBlock.size ≤ 0 := by
      rw [superBlock, isSize]
      exact empty
    have stays : ∀ {front results reached}, runAppends start front = some (results, reached) →
        reached = start := by
      intro front results reached reaches
      exact runAppends_without_blocks noBlocks (by rw [superBlock]; exact ⟨noMinimum, noMaximum⟩)
        reaches
    have noFile : ∀ id entry, sfsExistFile start id ≠ some (.ok entry) := by
      intro id entry found
      rw [sfsExistFile, dirGetEntry, dirFindEntry_without_blocks noBlocks] at found
      split at found <;> cases found
    have noDirectory : (formattedSuperBlock option size blockSize).dirBlockCount ≤ 0 := by
      by_contra some_
      exact absurd (sfsFormat_size_pos run (not_le.mp some_)) (not_lt.mpr empty)
    have agrees : TotalAgrees start := by
      rw [TotalAgrees, dirEntries, superBlock, noBytes, Int.toNat_of_nonpos noDirectory]
      rfl
    constructor
    · intro _ front id buf back results before _ reaches
      rw [stays reaches]
      rintro ⟨-, -, entry, found, -⟩
      exact noFile id entry found
    · intro _
      constructor
      · intro front back results reached _ reaches
        rw [stays reaches]
        exact agrees
      · rintro front id buf back results before after _ reaches ⟨entry, found⟩
        rw [stays reaches] at found
        exact absurd found (noFile id entry)

/-- Two files in a segment with a table. -/
theorem sfsFormat_appendsAccounted_two_appends : ∃ formatted,
    sfsFormat newSegment oFat 4680 36 = some (.success, formatted) ∧
      AppendsAccounted { formatted with type := .file } [(1, [7, 8]), (2, [9]), (1, [10])] := by
  obtain ⟨formatted, run⟩ : ∃ formatted,
      sfsFormat newSegment oFat 4680 36 = some (.success, formatted) := ⟨_, rfl⟩
  obtain ⟨geo, tallied⟩ :=
    sfsFormat_tallied newSegment_reliable (by decide) (by decide) run .file
  have fat : geo.fat = true := by
    rw [← tallied.represents.mounted.shaped.hasFat]
    show formatted.superBlock.hasFat = true
    rw [sfsFormat_superBlock run]
    rfl
  exact ⟨formatted, run, (sfsFormat_appendsAccounted_iff newSegment_reliable (by decide) run .file
    [(1, [7, 8]), (2, [9]), (1, [10])] (by decide)).mpr
      (tallied.represents.noneRefused fat (by decide))⟩

/-- The second file stands behind the first one, whose block takes 54 of the 60
bytes before the append fails. -/
theorem sfsFormat_refused_append : ∃ formatted results before after,
    sfsFormat newSegment 0 640 64 = some (.success, formatted) ∧
      runAppends { formatted with type := .file } [(1, List.replicate 10 7), (2, [8])] =
        some (results, before) ∧
      sfsAppend before 1 (List.replicate 60 9) = some (.error .fail, after) ∧
      (sfsGetInfo before 1).map (Except.map SfsInfo.fileSize) = some (.ok 10) ∧
      (sfsGetInfo after 1).map (Except.map SfsInfo.fileSize) = some (.ok 64) ∧
      before.superBlock.fileTotalByte = 11 ∧ after.superBlock.fileTotalByte = 10 ∧
      ¬ AppendsAccounted { formatted with type := .file }
        [(1, List.replicate 10 7), (2, [8]), (1, List.replicate 60 9)] := by
  have outcome : ((sfsFormat newSegment 0 640 64).bind fun formatted =>
      (runAppends { formatted.2 with type := .file }
        [(1, List.replicate 10 7), (2, [8])]).bind fun run =>
          (sfsAppend run.2 1 (List.replicate 60 9)).map fun appended => decide (
            formatted.1 = .success ∧ appended.1 = .error .fail ∧
            sfsExistFile run.2 1 = some (.ok ⟨1, 10, 2, 2⟩) ∧
            (sfsGetInfo run.2 1).map (Except.map SfsInfo.fileSize) = some (.ok 10) ∧
            (sfsGetInfo appended.2 1).map (Except.map SfsInfo.fileSize) = some (.ok 64) ∧
            run.2.superBlock.fileTotalByte = 11 ∧
            appended.2.superBlock.fileTotalByte = 10)) = some true := by
    decide +kernel
  obtain ⟨⟨ret, formatted⟩, format, outcome⟩ := Option.bind_eq_some_iff.mp outcome
  obtain ⟨⟨results, before⟩, run, outcome⟩ := Option.bind_eq_some_iff.mp outcome
  obtain ⟨⟨result, after⟩, appended, outcome⟩ := Option.map_eq_some_iff.mp outcome
  obtain ⟨rfl, rfl, found, sizeBefore, sizeAfter, totalBefore, totalAfter⟩ :=
    of_decide_eq_true outcome
  refine ⟨formatted, results, before, after, format, run, appended, sizeBefore, sizeAfter,
    totalBefore, totalAfter, ?_⟩
  intro accounted
  have unharmed := accounted.failed [(1, List.replicate 10 7), (2, [8])] 1 (List.replicate 60 9)
    [] results before after rfl run ⟨_, found⟩ appended
  rw [unharmed.info, sizeBefore] at sizeAfter
  simp at sizeAfter

end Wisebot.Sfs
