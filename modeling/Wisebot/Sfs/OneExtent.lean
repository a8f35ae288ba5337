import Wisebot.Sfs.Append

namespace Wisebot.Sfs

open Wisebot.Lib

/-! Files that stay one extent: an append grows the extent when the free blocks begin
behind it. -/

/-- The inode stands in the only extent of its file, with the free blocks behind it, or the
file has no blocks. -/
structure Sole (sfs : Segment) (inode : Inode) : Prop where
  first : inode.dirEntry.firstBlockNum = inode.sfsBlockNum
  last : inode.dirEntry.lastBlockNum = inode.sfsBlockNum
  num : inode.currFatEntry.num = 0
  frontier : inode.sfsBlockNum = 0 ∨
    ((inode.sfsBlockNum + inode.currFatEntry.count : Nat) : Int) = sfs.superBlock.freeBlockNum
  free_pos : 0 < sfs.superBlock.freeBlockNum
  end_lt : sfs.superBlock.endFileBlock < 2 ^ countMaxBit - 1

section

variable {sfs sfs' : Segment} {inode inode' : Inode} {need : Nat}

theorem sfsBlockWrite_superBlock {ret : Ret} {start : Int}
    {buf : List UInt8} (run : sfsBlockWrite sfs start buf = some (ret, sfs')) :
    sfs'.superBlock = sfs.superBlock := by
  rw [sfsBlockWrite] at run
  split_ifs at run
  · cases run
    rfl
  · cases run
    rfl

theorem writeFatEntry_superBlock {num : Nat} {entry : FatEntry} {ret : Ret}
    (run : writeFatEntry sfs num entry = some (ret, sfs')) :
    sfs'.superBlock = sfs.superBlock := by
  rw [writeFatEntry] at run
  split at run
  · split at run
    · cases run
      rfl
    · exact sfsBlockWrite_superBlock run
  · cases run
    rfl

/-- The blocks that the only extent of a file gets: its first ones, or more behind it. -/
theorem Sole.fatAllocate (sole : Sole sfs inode) {allocated : Allocation}
    (run : fatAllocate sfs inode.currFatEntry inode.sfsBlockNum need =
      some (.success, allocated, sfs')) :
    ∃ count : Nat,
      sfs'.superBlock = { sfs.superBlock with
        freeBlockNum := sfs.superBlock.freeBlockNum + count } ∧
      ((inode.sfsBlockNum = 0 ∧ allocated.next = ⟨count, 0⟩ ∧
          allocated.entry.num = sfs.superBlock.freeBlockNum.toNat) ∨
        (inode.sfsBlockNum ≠ 0 ∧ allocated.next = ⟨inode.currFatEntry.count + count, 0⟩ ∧
          allocated.entry = inode.currFatEntry)) := by
  have free_pos := sole.free_pos
  have end_lt := sole.end_lt
  rw [Sfs.fatAllocate] at run
  dsimp only at run
  split at run
  case isTrue => cases run
  case isFalse room =>
    split at run
    case isTrue => cases run
    case isFalse =>
      split at run
      case isTrue extended =>
        split at run
        · cases run
        · next written =>
          cases run
          exact ⟨_, writeFatEntry_superBlock written, .inr ⟨extended.1, rfl, rfl⟩⟩
        · cases run
      case isFalse notExtended =>
        have blank : inode.sfsBlockNum = 0 := by
          rcases sole.frontier with zero | touches
          · exact zero
          · by_contra nonzero
            refine notExtended ⟨nonzero, touches, ?_⟩
            simp only [countMaxBit] at end_lt ⊢
            omega
        simp only [blank, if_true] at run
        split at run
        · cases run
        · next written =>
          cases run
          exact ⟨_, writeFatEntry_superBlock written, .inl ⟨blank, rfl, rfl⟩⟩
        · cases run

theorem Sole.extendBlock (sole : Sole sfs inode)
    (run : extendBlock sfs inode need = some (.success, inode', sfs')) : Sole sfs' inode' := by
  have free_pos := sole.free_pos
  rw [Sfs.extendBlock] at run
  split at run
  · cases run
  · next allocated extended allocation =>
    obtain ⟨count, superBlock, ⟨blank, next, num⟩ | ⟨used, next, entry⟩⟩ :=
      sole.fatAllocate allocation
    · have first : inode.dirEntry.firstBlockNum = 0 := sole.first.trans blank
      have different : allocated.entry.num ≠ allocated.next.num := by
        rw [num, next]
        show sfs.superBlock.freeBlockNum.toNat ≠ 0
        omega
      simp only [first, if_true, if_neg different, ne_eq, not_true_eq_false, and_false,
        if_false] at run
      cases run
      refine ⟨rfl, rfl, by rw [next], .inr ?_, ?_, ?_⟩
      · show ((allocated.entry.num + allocated.next.count : Nat) : Int) = _
        rw [superBlock, num, next]
        show ((sfs.superBlock.freeBlockNum.toNat + count : Nat) : Int) =
          sfs.superBlock.freeBlockNum + count
        omega
      · rw [superBlock]
        show 0 < sfs.superBlock.freeBlockNum + count
        omega
      · rw [superBlock]
        exact sole.end_lt
    · have first : inode.dirEntry.firstBlockNum ≠ 0 := sole.first.trans_ne used
      have same : allocated.entry.num = allocated.next.num := by
        rw [entry, next, sole.num]
      simp only [if_neg first, same, if_true] at run
      cases run
      refine ⟨sole.first, sole.last, by rw [next], .inr ?_, ?_, ?_⟩
      · have touches := sole.frontier.resolve_left used
        show ((inode.sfsBlockNum + allocated.next.count : Nat) : Int) = _
        rw [superBlock, next]
        show ((inode.sfsBlockNum + (inode.currFatEntry.count + count) : Nat) : Int) =
          sfs.superBlock.freeBlockNum + count
        omega
      · rw [superBlock]
        show 0 < sfs.superBlock.freeBlockNum + count
        omega
      · rw [superBlock]
        exact sole.end_lt
  · cases run
  · cases run

theorem extendBlock_full {ret : Ret} (run : extendBlock sfs inode need = some (ret, inode', sfs'))
    (notExtended : ret ≠ .success) (noFailure : ret ≠ .fail) : inode' = inode := by
  rw [extendBlock] at run
  split at run
  · cases run
  · dsimp only at run
    split_ifs at run
    all_goals
      obtain ⟨same, _⟩ := Prod.mk.inj (Option.some.inj run)
      first
        | exact absurd same.symm notExtended
        | exact absurd same.symm noFailure
  · cases run
    rfl
  · cases run
    exact absurd rfl noFailure

theorem Sole.appendFileLoop {fuel total total' : Nat} {buf : List UInt8} {ret : Ret}
    (sole : Sole sfs inode) (noFailure : ret ≠ .fail)
    (run : Sfs.appendFileLoop fuel sfs inode total buf = some (ret, total', inode', sfs')) :
    inode'.dirEntry.firstBlockNum = inode'.dirEntry.lastBlockNum := by
  induction fuel generalizing sfs inode total buf with
  | zero => cases run
  | succ fuel induction =>
    have here := sole.first.trans sole.last.symm
    rw [Sfs.appendFileLoop] at run
    split at run
    · cases run
      exact here
    · dsimp only at run
      split at run
      · cases run
      · next inode₁ sfs₁ extended =>
        have sole₁ : Sole sfs₁ inode₁ := by
          split at extended
          · exact sole.extendBlock extended
          · cases extended
            exact sole
        split at run
        · cases run
        · next sfs₂ written =>
          have superBlock := sfsBlockWrite_superBlock written
          have sole₂ : Sole sfs₂ { inode₁ with
              offsetInSfsBlocks := inode₁.offsetInSfsBlocks +
                min (inode₁.endOfSfsBlocks - inode₁.offsetInSfsBlocks) buf.length
              fileSizeInSfsBlocks := inode₁.offsetInSfsBlocks +
                min (inode₁.endOfSfsBlocks - inode₁.offsetInSfsBlocks) buf.length } :=
            ⟨sole₁.first, sole₁.last, sole₁.num, superBlock ▸ sole₁.frontier,
              superBlock ▸ sole₁.free_pos, superBlock ▸ sole₁.end_lt⟩
          exact induction sole₂ run
        · cases run
          exact sole₁.first.trans sole₁.last.symm
      · next ret' inode₁ sfs₁ notSuccess extended =>
        cases run
        split at extended
        · rw [extendBlock_full extended notSuccess noFailure]
          exact here
        · cases extended
          exact here

end

end Wisebot.Sfs
