import Wisebot.Sfs.FileSet

namespace Wisebot.Sfs

open Wisebot.Lib

/-! Segments that are formatted alike, and appends for which there is room. -/

section

variable {sfs sfs' other : Segment}

theorem sfsBlockWrite_again (reliable : other.io.Reliable)
    (size : other.superBlock.size = sfs.superBlock.size) {start : Int} {buf : List UInt8}
    (run : sfsBlockWrite sfs start buf = some (.success, sfs')) :
    ∃ other', sfsBlockWrite other start buf = some (.success, other') ∧
      other'.io.Reliable ∧ other'.superBlock.size = sfs'.superBlock.size := by
  have kept := sfsBlockWrite_superBlock run
  rw [sfsBlockWrite] at run
  split at run
  case isFalse => cases run
  case isTrue within =>
    have same : other.Within start buf.length := by
      rw [Segment.Within, size]
      exact within
    rw [kept, sfsBlockWrite, if_pos same]
    split
    · exact ⟨_, rfl, reliable, size⟩
    · simp only [reliable.write, if_true]
      exact ⟨_, rfl, reliable, size⟩

theorem writeEmptyRootDirFrom_again (reliable : other.io.Reliable)
    (size : other.superBlock.size = sfs.superBlock.size) {blockSize remaining : Nat} {block : Int}
    (run : writeEmptyRootDirFrom sfs blockSize remaining block = some (.success, sfs')) :
    ∃ other', writeEmptyRootDirFrom other blockSize remaining block = some (.success, other') := by
  induction remaining generalizing sfs other block with
  | zero => exact ⟨other, rfl⟩
  | succ remaining induction =>
    rw [writeEmptyRootDirFrom] at run
    split at run
    · cases run
    · next written =>
      obtain ⟨next, again, nextReliable, nextSize⟩ := sfsBlockWrite_again reliable size written
      rw [writeEmptyRootDirFrom, again]
      exact induction nextReliable nextSize run
    · cases run

theorem sfsFormat_again (reliable : other.io.Reliable) {option : UInt32} {size blockSize : Int}
    (run : sfsFormat sfs option size blockSize = some (.success, sfs')) :
    ∃ other', sfsFormat other option size blockSize = some (.success, other') := by
  obtain ⟨_, _, directory⟩ := sfsFormat_success run
  rw [sfsFormat] at run ⊢
  split_ifs at run ⊢ with zero header large broken blocks
  · cases run
  · cases run
  · cases run
  · cases run
  · have header : writeSuperblock { other with
        superBlock := formattedSuperBlock option size blockSize } = .success := by
      rw [writeSuperblock, if_pos]
      exact .inr (reliable.write _ _)
    simp only [header]
    rw [writeEmptyRootDir] at directory ⊢
    split at directory
    · cases directory
    · next positive =>
      rw [if_neg positive]
      obtain ⟨blank, isBlank⟩ : ∃ blank, blank = { other with
        superBlock := formattedSuperBlock option size blockSize } := ⟨_, rfl⟩
      have blankReliable : blank.io.Reliable := by
        rw [isBlank]
        exact reliable
      have again := writeEmptyRootDirFrom_again blankReliable (by rw [isBlank]) directory
      rw [isBlank] at again
      exact again

end

namespace Represents

variable {sfs : Segment} {geo : Geometry} {files : Nat → Option (List UInt8)}
  {free : Nat} {chain : Nat → List Extent} {id : Nat} {content buf : List UInt8}

theorem chain_nil (represents : Represents sfs geo files free chain)
    (stored : files id = some []) : chain id = [] := by
  obtain ⟨_, _, _, _, _, _, holds⟩ := represents.search_stored stored
  by_contra some_
  have bytes := fileBytes_ne_nil sfs.mem geo.blockSize_pos (Holds.fill_pos geo [])
    holds.nonempty some_
  rw [holds.bytes] at bytes
  exact absurd bytes (lt_irrefl 0)

theorem atFrontier_nil (represents : Represents sfs geo files free chain)
    (stored : files id = some []) : AtFrontier free (chain id) := by
  intro front last split
  rw [represents.chain_nil stored] at split
  exact absurd split (by simp)

structure Filled (geo : Geometry) (files : Nat → Option (List UInt8)) (free : Nat)
    (chain : Nat → List Extent) (id : Nat) (content buf : List UInt8)
    (sfs sfs' : Segment) (free' : Nat) (chain' : Nat → List Extent) : Prop where
  represents : Represents sfs' geo (Function.update files id (some (content ++ buf))) free' chain'
  type : sfs'.type = sfs.type
  io : sfs'.io = sfs.io
  room : geo.roomFor free' (content ++ buf) + buf.length = geo.roomFor free content
  frontier : AtFrontier free' (chain' id)

theorem Grown.filled {result : Except Failure Nat} {sfs' : Segment} {written free' : Nat}
    {chain' : Nat → List Extent}
    (grown : Grown geo files free chain id content buf result sfs sfs' written free' chain')
    (frontier : AtFrontier free (chain id)) (room : buf.length ≤ geo.roomFor free content) :
    result = .ok buf.length ∧ Filled geo files free chain id content buf sfs sfs' free' chain' := by
  obtain ⟨stays, done⟩ := grown.frontier frontier
  have conserved := grown.room
  have all : written = buf.length := by
    have bound := grown.written_le
    rcases grown.outcome with ⟨_, whole | ⟨less, none_⟩⟩ | ⟨failed, _⟩
    · exact whole
    · omega
    · rw [done] at failed
      cases failed
  subst all
  rw [List.take_length] at conserved
  have represents := grown.represents
  rw [List.take_length] at represents
  exact ⟨done, represents, grown.type, grown.io, conserved, stays⟩

theorem sfsAppend_filled (represents : Represents sfs geo files free chain)
    (stored : files id = some content) (frontier : AtFrontier free (chain id))
    (room : buf.length ≤ geo.roomFor free content) :
    ∃ sfs' free' chain', sfsAppend sfs id buf = some (.ok buf.length, sfs') ∧
      Filled geo files free chain id content buf sfs sfs' free' chain' ∧
      Lengthened free chain chain' id := by
  obtain ⟨result, sfs', written, free', chain', run, grown, lengthened⟩ :=
    represents.sfsAppend_lengthened stored buf
  obtain ⟨rfl, filled⟩ := grown.filled frontier room
  exact ⟨sfs', free', chain', run, filled, lengthened⟩

end Represents

section

variable {geo : Geometry} {free : Nat} {content : List UInt8}

theorem Geometry.roomFor_nil (geo : Geometry) (free : Nat) :
    geo.roomFor free [] = (geo.dirStart - free) * geo.blockSize := by
  simp [Geometry.roomFor, Geometry.slack]

theorem Geometry.roomFor_add (geo : Geometry) (free : Nat) (content : List UInt8) :
    geo.roomFor free content + content.length =
      (geo.dirStart - free) * geo.blockSize +
        blocksFor content.length geo.blockSize * geo.blockSize := by
  rw [blocksFor_mul geo.blockSize_pos, Geometry.roomFor, Geometry.slack]
  omega

end

section

variable {sfs start final : Segment} {geo : Geometry} {files : Nat → Option (List UInt8)}
  {free : Nat} {chain : Nat → List Extent}

theorem Represents.needed_of_beyond (represents : Represents sfs geo files free chain)
    (beyond : geo.dirStart ≤ geo.fileStart) (id : Nat) : geo.needed files id = 0 := by
  rw [Geometry.needed, bytesOf]
  cases stored : files id with
  | none => exact blocksFor_zero geo.blockSize_pos
  | some content =>
    obtain ⟨block, _, index, _, _, _, holds⟩ := represents.search_stored stored
    have empty : chain id = [] := by
      rw [List.eq_nil_iff_forall_not_mem]
      intro extent member
      have above := holds.above extent member
      have inFiles := holds.inFiles extent member
      have nonempty := holds.nonempty extent member
      omega
    have blocks := holds.blocks
    rw [empty] at blocks
    exact blocks.symm

theorem Represents.fileIds_blank (blank : Represents start geo (fun _ => none) free chain) :
    geo.fileIds start.mem = [] := by
  rw [List.eq_nil_iff_forall_not_mem]
  intro id member
  exact absurd rfl (blank.mem_fileIds.mp member)

theorem Represents.runAppends_needed
    (blank : Represents start geo (fun _ => none) geo.fileStart fun _ => [])
    (inside : geo.ProbesInside) {calls : List (Nat × List UInt8)}
    (idsFit : ∀ call ∈ calls, call.1 < 2 ^ 31) {results : List (Except Failure Nat)}
    (run : runAppends start calls = some (results, final)) :
    ∃ files free chain, Represents final geo files free chain ∧
      ((geo.fileIds final.mem).map (geo.needed files)).sum ≤ geo.dirStart - geo.fileStart := by
  by_cases ordered : geo.fileStart ≤ geo.dirStart
  · have balanced : Balanced start geo (fun _ => none) geo.fileStart fun _ => [] := by
      refine ⟨blank, ?_⟩
      rw [blank.fileIds_blank]
      rfl
    obtain ⟨files, free, chain, kept⟩ := balanced.runAppends ordered idsFit run
    refine ⟨files, free, chain, kept.represents, ?_⟩
    have taken := kept.taken
    have bound := kept.represents.free_le_dirStart ordered
    omega
  · obtain ⟨_, _, files, free, chain, again, represents, _⟩ :=
      blank.runAppends_ids inside idsFit
    rw [run] at again
    obtain ⟨_, rfl⟩ := Prod.mk.inj (Option.some.inj again)
    refine ⟨files, free, chain, represents, ?_⟩
    have none_ : ∀ need ∈ (geo.fileIds final.mem).map (geo.needed files), need = 0 := by
      intro need member
      obtain ⟨id, _, rfl⟩ := List.mem_map.mp member
      exact represents.needed_of_beyond (by omega) id
    rw [List.sum_eq_zero none_]
    exact Nat.zero_le _

end

end Wisebot.Sfs
