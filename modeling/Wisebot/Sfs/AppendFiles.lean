import Wisebot.Sfs.Content
import Wisebot.Sfs.OneExtent

namespace Wisebot.Sfs

open Wisebot.Lib

/-! `sfs_append` on a represented segment. -/

namespace Geometry

variable (geo : Geometry)

def slack (content : List UInt8) : Nat :=
  (geo.blockSize - content.length % geo.blockSize) % geo.blockSize

def roomFor (free : Nat) (content : List UInt8) : Nat :=
  geo.slack content + (geo.dirStart - free) * geo.blockSize

end Geometry

/-- The last extent of a file, if any, reaches up to the free blocks. -/
def AtFrontier (free : Nat) (extents : List Extent) : Prop :=
  ∀ front last, extents = front ++ [last] → last.start + last.count = free

section

variable {base sfs : Segment} {geo : Geometry} {foreign : Extent → Prop} {free : Nat}
  {inode : Inode} {content : List UInt8}

theorem AtEnd.room_eq (atEnd : AtEnd base geo foreign sfs free inode content) :
    geo.room free inode = geo.roomFor free content := by
  rw [Geometry.room, Geometry.roomFor]
  congr 1
  have positive := geo.blockSize_pos
  cases atEnd with
  | blank growing block fatEntry offset end_eq content_eq =>
    simp [offset, end_eq, content_eq, Geometry.slack]
  | tail front last used growing tail filled =>
    obtain ⟨blocks, length⟩ := length_fullBytes sfs.mem geo.blockSize front
    have nonempty := growing.laid.nonempty last (by simp)
    have oneLess := Nat.sub_one_mul last.count geo.blockSize
    have whole := Nat.le_mul_of_pos_left geo.blockSize nonempty
    have used_le := tail.used_le
    obtain ⟨rest, used_eq⟩ := Nat.exists_eq_add_of_lt filled
    have size : content.length = (rest + 1) +
        (blocks + (last.count - 1)) * geo.blockSize := by
      rw [tail.content, List.length_append, length, Mem.length_read, Nat.add_mul,
        used_eq]
      omega
    have bound : rest + 1 ≤ geo.blockSize := by omega
    rw [tail.end_eq, tail.offset, Geometry.slack, size, Nat.add_mul_mod_self_right]
    rcases bound.lt_or_eq with less | full
    · rw [Nat.mod_eq_of_lt less, Nat.mod_eq_of_lt (by omega)]
      omega
    · rw [full, Nat.mod_self, Nat.sub_zero, Nat.mod_self]
      omega

theorem AtEnd.finish (atEnd : AtEnd base geo foreign sfs free inode content) :
    ∃ extents, Around base geo foreign sfs free ∧
      Holds geo sfs.mem free { inode.dirEntry with size := content.length } extents
        content ∧
      (∀ extent, foreign extent → ∀ own ∈ extents, extent.Apart own) ∧
      (AtFrontier free extents ↔ Frontier free inode) := by
  cases atEnd with
  | blank growing block fatEntry offset end_eq content_eq =>
    refine ⟨[], growing.toAround, ?_, growing.apart, ?_⟩
    · subst content_eq
      exact { growing.laid with size := rfl, bytes := rfl, first := growing.laid.first,
                                last := growing.laid.last }
    · simp [AtFrontier, Frontier, block]
  | tail front last used growing tail filled =>
    refine ⟨front ++ [last], growing.toAround, growing.holds tail filled, growing.apart,
      ?_⟩
    have above := growing.laid.above last (by simp)
    have files := geo.files_behind_header
    simp only [superBlockCount] at files
    rw [Frontier, tail.block, tail.fatEntry]
    constructor
    · intro touches
      exact .inr (touches front last rfl)
    · rintro (zero | touches) front' last' same
      · omega
      · obtain ⟨_, lasts⟩ := List.append_inj' same rfl
        obtain rfl := List.singleton_inj.mp lasts
        exact touches

end

theorem Laid.length_le_one {geo : Geometry} {mem : Mem} {free : Nat} {entry : DirEntry}
    {extents : List Extent} (laid : Laid geo mem free entry extents)
    (single : entry.firstBlockNum = entry.lastBlockNum) : extents.length ≤ 1 := by
  cases extents with
  | nil => exact Nat.zero_le 1
  | cons head rest =>
    rcases List.eq_nil_or_concat rest with none_ | ⟨front, last, split⟩
    · rw [none_]
      exact le_rfl
    · rw [List.concat_eq_append] at split
      subst split
      have same : head.start = last.start := by
        have first := laid.first
        have final := laid.last
        rw [← List.cons_append, lastStart, List.getLast?_append] at final
        rw [single, final] at first
        exact first.symm
      have apart := (List.pairwise_cons.mp laid.apart).1 last (by simp)
      have headSome := laid.nonempty head (by simp)
      have lastSome := laid.nonempty last (by simp)
      rcases apart with before | behind <;> omega

theorem Laid.single {geo : Geometry} {mem : Mem} {free : Nat} {entry : DirEntry}
    {extents : List Extent} (laid : Laid geo mem free entry extents)
    (short : extents.length ≤ 1) : entry.firstBlockNum = entry.lastBlockNum := by
  rw [laid.first, laid.last]
  cases extents with
  | nil => rfl
  | cons head rest =>
    obtain rfl : rest = [] := List.length_eq_zero_iff.mp (by
      rw [List.length_cons] at short
      omega)
    rfl

theorem AtEnd.sole {base sfs : Segment} {geo : Geometry} {foreign : Extent → Prop} {free : Nat}
    {inode : Inode} {content : List UInt8} (atEnd : AtEnd base geo foreign sfs free inode content)
    (frontier : Frontier free inode)
    (single : inode.dirEntry.firstBlockNum = inode.dirEntry.lastBlockNum) : Sole sfs inode := by
  have around : Around base geo foreign sfs free := by
    cases atEnd with
    | blank growing => exact growing.toAround
    | tail front last used growing => exact growing.toAround
  have files := geo.files_behind_header
  have bound := geo.blockCount_lt
  have dir_end := geo.dir_end
  have free_ge := around.free_ge
  simp only [superBlockCount] at files
  have free_pos : 0 < sfs.superBlock.freeBlockNum := by
    rw [around.freeBlock]
    omega
  have end_lt : sfs.superBlock.endFileBlock < 2 ^ countMaxBit - 1 := by
    rw [around.mounted.shaped.endFileBlock]
    simp only [countMaxBit] at bound ⊢
    omega
  cases atEnd with
  | blank growing block fatEntry =>
    have first : inode.dirEntry.firstBlockNum = 0 := growing.laid.first
    refine ⟨first.trans block.symm, (single.symm.trans first).trans block.symm, by rw [fatEntry],
      .inl block, free_pos, end_lt⟩
  | tail front last used growing tail filled =>
    have final : inode.dirEntry.lastBlockNum = inode.sfsBlockNum := by
      rw [growing.laid.last, tail.block]
      simp [lastStart]
    refine ⟨single.trans final, final, by rw [tail.fatEntry], ?_, free_pos, end_lt⟩
    rcases frontier with zero | touches
    · exact .inl zero
    · rw [around.freeBlock, touches]
      exact .inr rfl

/-- The chains of the other files stay, and one extent in front of the free blocks stays
the only one. -/
structure Lengthened (free : Nat) (chain chain' : Nat → List Extent) (id : Nat) : Prop where
  others : ∀ other, other ≠ id → chain' other = chain other
  single : AtFrontier free (chain id) → (chain id).length ≤ 1 → (chain' id).length ≤ 1

namespace Represents

variable {sfs : Segment} {geo : Geometry} {files : Nat → Option (List UInt8)}
  {free : Nat} {chain : Nat → List Extent} {id : Nat} {content buf : List UInt8}

theorem growing (represents : Represents sfs geo files free chain) {entry : DirEntry}
    (holds : Holds geo sfs.mem free entry (chain id) content) :
    Growing sfs geo (Foreign chain id) sfs free entry (chain id) :=
  { represents.around id with
    laid := holds.toLaid
    apart := by
      rintro extent ⟨other, different, member⟩ own inOwn
      exact represents.apart other id different extent member own inOwn }

theorem seekFileEnd (represents : Represents sfs geo files free chain) {inode : Inode}
    (holds : Holds geo sfs.mem free inode.dirEntry (chain id) content) :
    ∃ inode', seekFileEnd sfs inode = some (.ok inode') ∧
      inode'.dirEntry = inode.dirEntry ∧
      AtEnd sfs geo (Foreign chain id) sfs free inode' content ∧
      (AtFrontier free (chain id) ↔ Frontier free inode') := by
  have growing := represents.growing holds
  have blockSize : sfs.superBlock.blockSize.toNat = geo.blockSize := by
    rw [represents.mounted.shaped.blockSize, Int.toNat_natCast]
  rcases List.eq_nil_or_concat (chain id) with none_ | ⟨front, last, split⟩
  · have lastBlock := holds.last
    rw [none_] at lastBlock growing
    have empty : content = [] := by
      have bytes := holds.bytes
      rw [none_, fileBytes] at bytes
      exact bytes.symm
    refine ⟨_, if_pos lastBlock, rfl, .blank growing rfl rfl rfl rfl empty, ?_⟩
    simp [AtFrontier, Frontier, none_]
  · rw [List.concat_eq_append] at split
    rw [split] at holds growing
    have nonempty := holds.nonempty last (by simp)
    have above := holds.above last (by simp)
    have header := geo.files_behind_header
    simp only [superBlockCount] at header
    have lastBlock : inode.dirEntry.lastBlockNum = last.start := by
      rw [holds.last]
      simp [lastStart]
    have got := holds.fatGetEntry represents.mounted represents.freeBlock
    have fill_le := Holds.fill_le geo content
    have fill_pos := Holds.fill_pos geo content
    have oneLess := Nat.sub_one_mul last.count geo.blockSize
    have whole := Nat.le_mul_of_pos_left geo.blockSize nonempty
    refine ⟨
      { inode with
        sfsBlockNum := last.start
        currFatEntry := ⟨last.count, 0⟩
        offsetInSfsBlocks := (last.count - 1) * geo.blockSize +
          lastBlockFill content.length geo.blockSize
        fileSizeInSfsBlocks := (last.count - 1) * geo.blockSize +
          lastBlockFill content.length geo.blockSize
        endOfSfsBlocks := last.count * geo.blockSize },
      ?_, rfl, .tail front last _ growing
        ⟨rfl, rfl, rfl, rfl, ?_, ?_⟩ (Nat.lt_add_of_pos_right fill_pos), ?_⟩
    · rw [Sfs.seekFileEnd, lastBlock, if_neg (by omega), got]
      simp only [headStart, nonempty.ne', if_false, holds.size, blockSize]
    · show (last.count - 1) * geo.blockSize + lastBlockFill content.length geo.blockSize ≤
        last.count * geo.blockSize
      omega
    · rw [← fileBytes_append]
      exact holds.bytes.symm
    · constructor
      · intro atFrontier
        exact .inr (atFrontier front last split)
      · rintro (zero | touches) front' last' same
        · exact absurd zero (by show last.start ≠ 0; omega)
        · obtain ⟨_, lasts⟩ := List.append_inj' (split.symm.trans same) rfl
          obtain rfl := List.singleton_inj.mp lasts
          exact touches

structure Grown (geo : Geometry) (files : Nat → Option (List UInt8)) (free : Nat)
    (chain : Nat → List Extent) (id : Nat) (content buf : List UInt8)
    (result : Except Failure Nat) (sfs sfs' : Segment) (written free' : Nat)
    (chain' : Nat → List Extent) : Prop where
  represents : Represents sfs' geo
    (Function.update files id (some (content ++ buf.take written))) free' chain'
  type : sfs'.type = sfs.type
  io : sfs'.io = sfs.io
  written_le : written ≤ buf.length
  room : geo.roomFor free' (content ++ buf.take written) + written =
    geo.roomFor free content
  outcome : (result = .ok written ∧ (written = buf.length ∨
      (written < buf.length ∧ geo.roomFor free' (content ++ buf.take written) = 0))) ∨
    (result = .error .fail ∧ geo.fat = false)
  frontier : AtFrontier free (chain id) →
    AtFrontier free' (chain' id) ∧ result = .ok written

theorem appendFile (represents : Represents sfs geo files free chain)
    (stored : files id = some content) {inode : Inode} (same : inode.dirEntry.id = id)
    (holds : Holds geo sfs.mem free inode.dirEntry (chain id) content)
    (atEnd : AtEnd sfs geo (Foreign chain id) sfs free inode content)
    (frontier : AtFrontier free (chain id) → Frontier free inode) (buf : List UInt8) :
    ∃ result sfs' written free' chain',
      Sfs.appendFile sfs inode buf = some (result, sfs') ∧
      Grown geo files free chain id content buf result sfs sfs' written free' chain' ∧
      Lengthened free chain chain' id := by
  obtain ⟨ret, written, inode', sfs₁, free', run, appended⟩ :=
    atEnd.appendFileLoop (Nat.lt_succ_self buf.length) 0
  obtain ⟨extents, around, grownHolds, apart, frontierIff⟩ := appended.atEnd.finish
  obtain ⟨block, inDir, index, inBlock, found, slot, _⟩ := represents.search_stored stored
  obtain ⟨nonzero, small, _⟩ := represents.stored id content stored
  have written_le := appended.written_le
  have entry : { inode'.dirEntry with size := inode'.dirEntry.size + written } =
      { inode'.dirEntry with size := (content ++ buf.take written).length } := by
    rw [appended.size, holds.size, List.length_append, List.length_take,
      Nat.min_eq_left written_le]
  have entryId : inode'.dirEntry.id = id := appended.id.trans same
  have search : geo.search sfs₁.mem id = .place block index := by
    rw [← found]
    apply Probing.walk_congr
    intro b _ i _
    rw [Geometry.ids, around.dir b i, Geometry.ids]
  have slot₁ : (geo.entryAt sfs₁.mem block index).id ≠ 0 := by
    rw [around.dir]
    exact fun zero => nonzero (slot.symm.trans zero)
  have updated : dirUpdateEntry sfs₁
      { inode'.dirEntry with size := (content ++ buf.take written).length } =
      some (.success, putSlot sfs₁ geo block index
        { inode'.dirEntry with
          size := (content ++ buf.take written).length }.encode) := by
    rw [dirUpdateEntry, around.mounted.dirFindEntry _ _ (Nat.zero_lt_of_lt inDir)]
    simp [entryId, search, DirOp.outcome, DirOp.atEntry, slot₁]
  have next := represents.replaceFile inDir inBlock slot nonzero small around grownHolds
    entryId apart
  have room := appended.room
  rw [atEnd.room_eq, appended.atEnd.room_eq] at room
  have outcome := appended.outcome
  rw [appended.atEnd.room_eq] at outcome
  have result : Sfs.appendFile sfs inode buf =
      some (if ret = .success ∨ ret = .segmentFull then .ok written else .error .fail,
        putSlot sfs₁ geo block index { inode'.dirEntry with
          size := (content ++ buf.take written).length }.encode) := by
    rw [Sfs.appendFile, run]
    simp only [Nat.zero_add, entry, updated]
    split <;> rfl
  refine ⟨_, _, written, free', _, result,
    { represents := next
      type := around.type
      io := around.io
      written_le := written_le
      room := room
      outcome := ?_
      frontier := ?_ },
    { others := fun other different => Function.update_of_ne different _ _
      single := ?_ }⟩
  · rcases outcome with ⟨done, all⟩ | ⟨full, none_, less⟩ | ⟨failed, flat⟩
    · exact .inl ⟨by simp [done], .inl all⟩
    · exact .inl ⟨by simp [full], .inr ⟨less, none_⟩⟩
    · exact .inr ⟨by simp [failed], flat⟩
  · intro atFrontier
    obtain ⟨stays, notFailed⟩ := appended.frontier (frontier atFrontier)
    rw [Function.update_self]
    refine ⟨frontierIff.mpr stays, if_pos ?_⟩
    rcases outcome with ⟨done, _⟩ | ⟨full, _⟩ | ⟨failed, _⟩
    · exact .inl done
    · exact .inr full
    · exact absurd failed notFailed
  · intro atFrontier short
    have reached := frontier atFrontier
    rw [Function.update_self]
    exact grownHolds.toLaid.length_le_one ((atEnd.sole reached (holds.toLaid.single short)
      ).appendFileLoop (appended.frontier reached).2 run)

theorem countBytes (represents : Represents sfs geo files free chain) (writeByte : Int) :
    Represents { sfs with superBlock :=
      superblockUpdateWriteByte sfs.superBlock writeByte } geo files free chain :=
  { represents with
    mounted := ⟨represents.mounted.shaped.counters _ _ _ _ _,
      represents.mounted.reliable⟩
    counted := represents.counted.congr rfl rfl rfl (fun _ => Iff.rfl) }

theorem appendExisting (represents : Represents sfs geo files free chain)
    (stored : files id = some content) (buf : List UInt8) :
    ∃ result sfs' written free' chain',
      Sfs.appendExisting sfs id buf = some (result, sfs') ∧
      Grown geo files free chain id content buf result sfs sfs' written free' chain' ∧
      Lengthened free chain chain' id := by
  obtain ⟨opened, run, same, openHolds⟩ := represents.openFile_stored stored
  obtain ⟨inode, sought, entry, atEnd, frontier⟩ := represents.seekFileEnd openHolds
  obtain ⟨result, sfs', written, free', chain', appended, grown, lengthened⟩ :=
    represents.appendFile stored (entry ▸ same) (entry ▸ openHolds) atEnd frontier.mp buf
  refine ⟨result, _, written, free', chain', ?_,
    { grown with
      represents := grown.represents.countBytes (writeByteOf result)
      type := grown.type
      io := grown.io }, lengthened⟩
  simp only [Sfs.appendExisting, run, sought, appended]

theorem sfsAppend_lengthened (represents : Represents sfs geo files free chain)
    (stored : files id = some content) (buf : List UInt8) :
    ∃ result sfs' written free' chain',
      sfsAppend sfs id buf = some (result, sfs') ∧
      Grown geo files free chain id content buf result sfs sfs' written free' chain' ∧
      Lengthened free chain chain' id := by
  obtain ⟨_, found, _, _⟩ := represents.sfsExistFile_stored stored
  have nonzero := (represents.stored id content stored).1
  rw [sfsAppend, if_neg (by omega), found]
  exact represents.appendExisting stored buf

theorem sfsAppend_stored (represents : Represents sfs geo files free chain)
    (stored : files id = some content) (buf : List UInt8) :
    ∃ result sfs' written free' chain',
      sfsAppend sfs id buf = some (result, sfs') ∧
      Grown geo files free chain id content buf result sfs sfs' written free' chain' := by
  obtain ⟨result, sfs', written, free', chain', run, grown, _⟩ :=
    represents.sfsAppend_lengthened stored buf
  exact ⟨result, sfs', written, free', chain', run, grown⟩

/-- An append to a new file: the directory is left (no result), it has no
place for the file, or the file is made and grows. -/
theorem sfsAppend_absent (represents : Represents sfs geo files free chain)
    (absent : files id = none) (nonzero : id ≠ 0) (small : id < 2 ^ 31)
    (buf : List UInt8) :
    (sfsAppend sfs id buf = none ∧
      (geo.dirCount = 0 ∨ geo.search sfs.mem id = .outside)) ∨
    (sfsAppend sfs id buf = some (.ok 0, sfs) ∧
      geo.search sfs.mem id = .exhausted) ∨
    ∃ block index result sfs' written free' chain',
      geo.search sfs.mem id = .place block index ∧
      sfsAppend sfs id buf = some (result, sfs') ∧
      Grown geo (Function.update files id (some [])) free chain id [] buf result sfs sfs'
        written free' chain' := by
  rw [sfsAppend, if_neg (by omega)]
  rcases represents.sfsExistFile_absent absent with missing | ⟨undefined, outside⟩
  · rw [missing]
    rcases Nat.eq_zero_or_pos geo.dirCount with noDir | hasDir
    · left
      refine ⟨?_, .inl noDir⟩
      simp only [dirAddEntry, represents.mounted.dirFindEntry_none id .add noDir]
    · have add := represents.mounted.dirFindEntry id .add hasDir
      cases found : geo.search sfs.mem id with
      | outside =>
        left
        refine ⟨?_, .inr rfl⟩
        simp only [dirAddEntry, add, found, DirOp.outcome]
      | exhausted =>
        right
        left
        refine ⟨?_, rfl⟩
        simp only [dirAddEntry, add, found, DirOp.outcome, DirOp.missing]
      | place block index =>
        right
        right
        obtain ⟨_, _, isFree⟩ := represents.search_absent absent found
        rw [Geometry.ids] at isFree
        have next := represents.addFile found absent nonzero small
        obtain ⟨result, sfs', written, free', chain', run, grown, _⟩ :=
          next.appendExisting (Function.update_self id (some []) files) buf
        refine ⟨block, index, result, sfs', written, free', chain', rfl, ?_,
          { grown with type := grown.type, io := grown.io }⟩
        simp only [dirAddEntry, add, found, DirOp.outcome, DirOp.atEntry, isFree,
          if_true]
        exact run
  · left
    exact ⟨by rw [undefined], outside⟩

end Represents

end Wisebot.Sfs
