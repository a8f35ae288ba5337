import Wisebot.Lib.Transition
import Wisebot.Vbm.Blocks

namespace Wisebot.Vbm

open Wisebot.Lib

/-! Every block is in the free list or in the chain of one buffer. -/

variable {config : Config}

structure Owned (config : Config) (state : State) (free : List Nat) (chain : Nat → List Nat) :
    Prop where
  freeList : Linked state.blocks.nextInfo state.blocks.freeBlockRoot free
  chains : ∀ id buf, state.bufs id = some buf →
    Linked state.blocks.nextInfo buf.pFirst (chain id)
  absent : ∀ id, state.bufs id = none → chain id = []
  shared : Shared (· < config.numBufBlock) free chain

def BlocksOwned (config : Config) (state : State) : Prop :=
  ∃ free chain, Owned config state free chain

structure BufferOk (config : Config) (buf : VariableBuffer) (chain : List Nat) : Prop where
  last : buf.pLast = chain.getLast?
  used : buf.lastBlockUsedBytes ≤ config.bufBlockSize

structure Consistent (config : Config) (state : State) (free : List Nat)
    (chain : Nat → List Nat) : Prop extends Owned config state free chain where
  buffers : ∀ id buf, state.bufs id = some buf → BufferOk config buf (chain id)

theorem length_le_of_shared {free : List Nat} {chain : Nat → List Nat}
    (shared : Shared (· < config.numBufBlock) free chain) (id : Nat) :
    free.length + (chain id).length ≤ config.numBufBlock := by
  have part : free ++ chain id ⊆ List.range config.numBufBlock := by
    intro block member
    rw [List.mem_range, ← shared.covers block]
    rcases List.mem_append.mp member with isFree | isOwned
    · exact .inl isFree
    · exact .inr ⟨id, isOwned⟩
  have count := (List.subperm_of_subset (shared.nodup id) part).length_le
  rwa [List.length_append, List.length_range] at count

/-- The state after a call that has changed one buffer and blocks from its chain and
the free list. -/
theorem Consistent.exchange {state : State} {free : List Nat} {chain : Nat → List Nat}
    (consistent : Consistent config state free chain) {id : Nat} {blocks : Blocks}
    {buf : VariableBuffer} {free' own : List Nat}
    (freeList : Linked blocks.nextInfo blocks.freeBlockRoot free')
    (ownList : Linked blocks.nextInfo buf.pFirst own)
    (bufferOk : BufferOk config buf own)
    (isPerm : (free' ++ own).Perm (free ++ chain id))
    (frame : ∀ block, block ∉ free ++ chain id →
      blocks.nextInfo block = state.blocks.nextInfo block) :
    Consistent config ⟨blocks, Function.update state.bufs id (some buf)⟩ free'
      (Function.update chain id own) := by
  refine ⟨⟨freeList, ?_, ?_, consistent.shared.exchange isPerm⟩, ?_⟩
  · intro other otherBuf (isBuf : Function.update state.bufs id (some buf) other = some otherBuf)
    by_cases same : other = id
    · rw [same, Function.update_self] at isBuf ⊢
      cases isBuf
      exact ownList
    · rw [Function.update_of_ne same] at isBuf ⊢
      refine (consistent.chains other otherBuf isBuf).congr fun block member => frame block ?_
      intro isChanged
      rcases List.mem_append.mp isChanged with isFree | isOwn
      · exact consistent.shared.disjoint other isFree member
      · exact consistent.shared.apart other id same member isOwn
  · intro other (isNone : Function.update state.bufs id (some buf) other = none)
    by_cases same : other = id
    · rw [same, Function.update_self] at isNone
      cases isNone
    · rw [Function.update_of_ne same] at isNone ⊢
      exact consistent.absent other isNone
  · intro other otherBuf (isBuf : Function.update state.bufs id (some buf) other = some otherBuf)
    by_cases same : other = id
    · rw [same, Function.update_self] at isBuf ⊢
      cases isBuf
      exact bufferOk
    · rw [Function.update_of_ne same] at isBuf ⊢
      exact consistent.buffers other otherBuf isBuf

theorem freeInfoList_spec {blocks : Blocks} {root : Option Nat} {nodes free : List Nat}
    (linked : Linked blocks.nextInfo root nodes)
    (freeList : Linked blocks.nextInfo blocks.freeBlockRoot free)
    (nodup : (free ++ nodes).Nodup) {fuel : Nat} (enough : nodes.length ≤ fuel) :
    ∃ blocks', freeInfoList fuel blocks root = some blocks' ∧
      Linked blocks'.nextInfo blocks'.freeBlockRoot (nodes.reverse ++ free) ∧
      ∀ block, block ∉ nodes → blocks'.nextInfo block = blocks.nextInfo block := by
  induction nodes generalizing blocks root free fuel with
  | nil =>
    rw [show root = none from linked]
    refine ⟨blocks, ?_, freeList, fun block _ => rfl⟩
    cases fuel <;> rfl
  | cons node nodes induction =>
    cases fuel with
    | zero => simp at enough
    | succ fuel =>
      have moved : (node :: free ++ nodes).Nodup := List.nodup_middle.mp nodup
      have fresh : node ∉ free ++ nodes := (List.nodup_cons.mp moved).1
      have notFree : node ∉ free := fun member => fresh (List.mem_append_left _ member)
      have notLater : node ∉ nodes := fun member => fresh (List.mem_append_right _ member)
      obtain ⟨blocks', freed, isList, frame⟩ := @induction (pushOneBlock blocks node)
        (blocks.nextInfo node) (node :: free) (linked.2.update notLater _)
        (freeList.push notFree) moved fuel (by simpa using enough)
      refine ⟨blocks', ?_, ?_, ?_⟩
      · rw [linked.1, freeInfoList, freed]
      · rwa [List.reverse_cons, List.append_assoc, List.singleton_append]
      · intro block isOther
        rw [List.mem_cons, not_or] at isOther
        rw [frame block isOther.2]
        exact Function.update_of_ne isOther.1 _ _

def room (config : Config) (buf : VariableBuffer) : Nat :=
  match buf.pFirst with
  | none => 0
  | some _ => config.bufBlockSize - buf.lastBlockUsedBytes

/-- A buffer with blocks, between two blocks of an append: `free` and `own` are its
blocks then, `free₀` and `own₀` those at the beginning. -/
structure Appending (config : Config) (blocks : Blocks) (buf : VariableBuffer)
    (free own : List Nat) : Prop where
  freeList : Linked blocks.nextInfo blocks.freeBlockRoot free
  ownList : Linked blocks.nextInfo buf.pFirst own
  nodup : (free ++ own).Nodup
  bufferOk : BufferOk config buf own

def Appended (config : Config) (blocks : Blocks) (buf : VariableBuffer) (free own : List Nat)
    (blocks' : Blocks) (buf' : VariableBuffer) : Prop :=
  ∃ free' own', Appending config blocks' buf' free' own' ∧ (free' ++ own').Perm (free ++ own) ∧
    buf'.size = buf.size ∧
    ∀ block, block ∉ free ++ own → blocks'.nextInfo block = blocks.nextInfo block

theorem popOneBlock_spec {blocks : Blocks} {free : List Nat} {block : Nat}
    (freeList : Linked blocks.nextInfo blocks.freeBlockRoot (block :: free)) :
    popOneBlock blocks =
      some (block, ⟨blocks.nextInfo block, Function.update blocks.nextInfo block none⟩) := by
  rw [popOneBlock, freeList.1]

theorem Appending.extend {blocks : Blocks} {buf : VariableBuffer} {free own : List Nat}
    {block last : Nat} (appending : Appending config blocks buf (block :: free) (own ++ [last])) :
    Appending config
      ⟨blocks.nextInfo block,
        Function.update (Function.update blocks.nextInfo block none) last (some block)⟩
      { buf with pLast := some block, lastBlockUsedBytes := 0 } free (own ++ [last] ++ [block]) := by
  have nodup := appending.nodup
  rw [List.cons_append, List.nodup_cons] at nodup
  have notFree : block ∉ free := fun member => nodup.1 (List.mem_append_left _ member)
  have notOwn : block ∉ own ++ [last] := fun member => nodup.1 (List.mem_append_right _ member)
  have lastNotFree : last ∉ free := fun member =>
    List.disjoint_of_nodup_append nodup.2 member (by simp)
  refine ⟨?_, ?_, ?_, ?_, ?_⟩
  · exact (appending.freeList.2.update notFree none).update lastNotFree (some block)
  · exact (appending.ownList.update notOwn none).concat (List.nodup_append'.mp nodup.2).2.1 notOwn
      (by rw [Function.update_self])
  · rw [← List.append_assoc]
    have isPerm : (free ++ (own ++ [last]) ++ [block]).Perm (block :: (free ++ (own ++ [last]))) :=
      List.perm_append_singleton block _
    exact isPerm.nodup_iff.mpr (List.nodup_cons.mpr nodup)
  · simp
  · exact Nat.zero_le _

theorem copyBlocks_last {blocks : Blocks} {buf : VariableBuffer} {free own : List Nat}
    (appending : Appending config blocks buf free own) {remainSize : Nat}
    (fits : remainSize ≤ config.bufBlockSize - buf.lastBlockUsedBytes)
    {oneBlock : Bool} (isFirst : oneBlock = true ∨ buf.lastBlockUsedBytes = 0) (fuel : Nat) :
    ∃ blocks' buf', copyBlocks config (fuel + 1) blocks buf remainSize oneBlock =
        some (true, blocks', buf') ∧
      Appended config blocks buf free own blocks' buf' := by
  have used := appending.bufferOk.used
  refine ⟨blocks, { buf with lastBlockUsedBytes := buf.lastBlockUsedBytes + remainSize }, ?_,
    free, own, ⟨appending.freeList, appending.ownList, appending.nodup,
      appending.bufferOk.last, ?_⟩, List.Perm.refl _, rfl, fun block _ => rfl⟩
  · rw [copyBlocks, Nat.min_eq_right fits, Nat.sub_self, if_pos rfl]
    rcases isFirst with rfl | isZero
    · rfl
    · cases oneBlock with
      | true => rfl
      | false => simp [isZero]
  · show buf.lastBlockUsedBytes + remainSize ≤ config.bufBlockSize
    omega

theorem copyBlocks_spec {blocks : Blocks} {buf : VariableBuffer} {free own : List Nat} {last : Nat}
    (appending : Appending config blocks buf free (own ++ [last])) {remainSize : Nat}
    (fits : remainSize ≤ config.bufBlockSize - buf.lastBlockUsedBytes +
      config.bufBlockSize * free.length)
    {oneBlock : Bool} (isFirst : oneBlock = true ∨ buf.lastBlockUsedBytes = 0)
    {fuel : Nat} (enough : free.length < fuel) :
    ∃ blocks' buf', copyBlocks config fuel blocks buf remainSize oneBlock =
        some (true, blocks', buf') ∧
      Appended config blocks buf free (own ++ [last]) blocks' buf' := by
  induction free generalizing blocks buf own last remainSize oneBlock fuel with
  | nil =>
    obtain ⟨fuel, rfl⟩ := Nat.exists_eq_succ_of_ne_zero (Nat.ne_zero_of_lt enough)
    exact copyBlocks_last appending (by simpa using fits) isFirst fuel
  | cons block free induction =>
    obtain ⟨fuel, rfl⟩ := Nat.exists_eq_succ_of_ne_zero (Nat.ne_zero_of_lt enough)
    rw [List.length_cons] at enough fits
    by_cases small : remainSize ≤ config.bufBlockSize - buf.lastBlockUsedBytes
    · exact copyBlocks_last appending small isFirst fuel
    · have copied : min (config.bufBlockSize - buf.lastBlockUsedBytes) remainSize =
          config.bufBlockSize - buf.lastBlockUsedBytes := by omega
      have isLast : buf.pLast = some last := by rw [appending.bufferOk.last]; simp
      rw [Nat.mul_succ] at fits
      have fitsNext : remainSize - (config.bufBlockSize - buf.lastBlockUsedBytes) ≤
          config.bufBlockSize - 0 + config.bufBlockSize * free.length := by omega
      obtain ⟨blocks', buf', isCopied, free', own', result, isPerm, isSize, frame⟩ :=
        induction appending.extend fitsNext (.inr rfl) (Nat.lt_of_succ_lt_succ enough)
      refine ⟨blocks', buf', ?_, free', own', result, isPerm.trans ?_, isSize, ?_⟩
      · rw [copyBlocks, copied, if_neg (by omega), popOneBlock_spec appending.freeList, isLast]
        exact isCopied
      · rw [← List.append_assoc]
        exact List.perm_append_singleton block _
      · intro other isOther
        rw [List.cons_append, List.mem_cons, not_or] at isOther
        have notLast : other ≠ last := fun same => isOther.2 (by simp [same])
        rw [frame other (by simpa [isOther.1] using isOther.2)]
        exact (Function.update_of_ne notLast _ _).trans (Function.update_of_ne isOther.1 _ _)

theorem initBufFirstPointer_spec {blocks : Blocks} {buf : VariableBuffer} {free own : List Nat}
    (appending : Appending config blocks buf free own) (nonempty : free ≠ []) :
    ∃ blocks' buf' free' own' last, initBufFirstPointer blocks buf = some (blocks', buf') ∧
      Appending config blocks' buf' free' (own' ++ [last]) ∧
      (free' ++ (own' ++ [last])).Perm (free ++ own) ∧ free'.length ≤ free.length ∧
      room config buf + config.bufBlockSize * free.length ≤
        config.bufBlockSize - buf'.lastBlockUsedBytes + config.bufBlockSize * free'.length ∧
      ∀ block, block ∉ free ++ own → blocks'.nextInfo block = blocks.nextInfo block := by
  rw [initBufFirstPointer, room]
  cases isFirst : buf.pFirst with
  | some first =>
    rcases List.eq_nil_or_concat own with rfl | ⟨before, last, rfl⟩
    · exact absurd (isFirst.symm.trans appending.ownList) (Option.some_ne_none first)
    · rw [List.concat_eq_append] at appending ⊢
      exact ⟨blocks, buf, free, before, last, rfl, appending, List.Perm.refl _, le_refl _,
        le_refl _, fun block _ => rfl⟩
  | none =>
    obtain rfl : own = [] := List.head?_eq_none_iff.mp
      (appending.ownList.root_eq.symm.trans isFirst)
    obtain ⟨block, rest, rfl⟩ := List.exists_cons_of_ne_nil nonempty
    have notFree : block ∉ rest := by simpa using (List.nodup_cons.mp appending.nodup).1
    have nodup : (rest ++ [block]).Nodup := by
      have := appending.nodup
      rw [List.append_nil] at this
      exact (List.perm_append_singleton block rest).nodup_iff.mpr this
    refine ⟨⟨blocks.nextInfo block, Function.update blocks.nextInfo block none⟩,
      { buf with pFirst := some block, pLast := some block, lastBlockUsedBytes := 0 }, rest, [],
      block, ?_, ⟨appending.freeList.2.update notFree none, ⟨rfl, ?_⟩, nodup, rfl,
        Nat.zero_le _⟩, ?_, Nat.le_succ _, ?_, ?_⟩
    · rw [popOneBlock_spec appending.freeList]
      rfl
    · exact Function.update_self block none blocks.nextInfo
    · rw [List.append_nil]
      exact List.perm_append_singleton block rest
    · rw [List.length_cons, Nat.mul_succ]
      show 0 + _ ≤ config.bufBlockSize - 0 + _
      omega
    · intro other isOther
      exact Function.update_of_ne (fun same : other = block => isOther (by simp [same])) _ _

theorem appendBytes_spec {blocks : Blocks} {buf : VariableBuffer} {free own : List Nat}
    (appending : Appending config blocks buf free own) (nonempty : free ≠ [])
    (few : free.length ≤ config.numBufBlock) {size : Nat}
    (fits : size ≤ room config buf + config.bufBlockSize * free.length) :
    ∃ blocks' buf', appendBytes config blocks buf size = some (.success, blocks', buf') ∧
      ∃ free' own', Appending config blocks' buf' free' own' ∧
        (free' ++ own').Perm (free ++ own) ∧
        ∀ block, block ∉ free ++ own → blocks'.nextInfo block = blocks.nextInfo block := by
  obtain ⟨blocks₁, buf₁, free₁, before, last, isStarted, started, isPerm₁, fewer, capacity, frame₁⟩ :=
    initBufFirstPointer_spec appending nonempty
  have enough : free₁.length < size + config.numBufBlock + 2 := by omega
  obtain ⟨blocks', buf', isCopied, free', own', result, isPerm, -, frame⟩ :=
    copyBlocks_spec started (Nat.le_trans fits capacity) (.inl rfl) enough
  obtain ⟨block, rest, rfl⟩ := List.exists_cons_of_ne_nil nonempty
  refine ⟨blocks', { buf' with size := buf'.size + size }, ?_, free', own',
    ⟨result.freeList, result.ownList, result.nodup, result.bufferOk.last, result.bufferOk.used⟩,
    isPerm.trans isPerm₁, ?_⟩
  · rw [appendBytes, appending.freeList.1]
    simp only [isStarted, isCopied]
  · intro other isOther
    rw [frame other fun member => isOther (isPerm₁.subset member), frame₁ other isOther]

theorem Consistent.appending {state : State} {free : List Nat} {chain : Nat → List Nat}
    (consistent : Consistent config state free chain) {id : Nat} {buf : VariableBuffer}
    (isBuf : state.bufs id = some buf) : Appending config state.blocks buf free (chain id) :=
  ⟨consistent.freeList, consistent.chains id buf isBuf, consistent.shared.nodup id,
    consistent.buffers id buf isBuf⟩

theorem Consistent.free_length {state : State} {free : List Nat} {chain : Nat → List Nat}
    (consistent : Consistent config state free chain) : free.length ≤ config.numBufBlock :=
  Nat.le_trans (Nat.le_add_right _ _) (length_le_of_shared consistent.shared 0)

/-- The blocks of the free list. -/
def freeBlocks (config : Config) (blocks : Blocks) : List Nat :=
  nodesFrom blocks.nextInfo config.numBufBlock blocks.freeBlockRoot

theorem Consistent.freeBlocks_eq {state : State} {free : List Nat} {chain : Nat → List Nat}
    (consistent : Consistent config state free chain) : freeBlocks config state.blocks = free :=
  consistent.freeList.nodesFrom_eq consistent.free_length

theorem Consistent.append {state : State} {free : List Nat} {chain : Nat → List Nat}
    (consistent : Consistent config state free chain) {id size : Nat} {buf : VariableBuffer}
    (isBuf : state.bufs id = some buf)
    (fits : free ≠ [] → size ≤ room config buf + config.bufBlockSize * free.length) :
    ∃ next, append config state id size = some next ∧
      ∃ free' chain', Consistent config next free' chain' := by
  by_cases nonempty : free = []
  · have root : state.blocks.freeBlockRoot = none := by
      rw [consistent.freeList.root_eq, nonempty]
      rfl
    have same : (⟨state.blocks, Function.update state.bufs id (some buf)⟩ : State) = state := by
      rw [← isBuf, Function.update_eq_self]
    refine ⟨state, ?_, free, chain, consistent⟩
    rw [Vbm.append, isBuf, Option.bind_some, appendBytes, root]
    exact congrArg some same
  · obtain ⟨blocks', buf', isAppended, free', own', result, isPerm, frame⟩ :=
      appendBytes_spec (consistent.appending isBuf) nonempty consistent.free_length (fits nonempty)
    refine ⟨_, ?_, free', _, consistent.exchange result.freeList result.ownList
      result.bufferOk isPerm frame⟩
    rw [Vbm.append, isBuf, Option.bind_some, isAppended]
    rfl

theorem Consistent.freeBuf {state : State} {free : List Nat} {chain : Nat → List Nat}
    (consistent : Consistent config state free chain) {id : Nat} {buf : VariableBuffer}
    (isBuf : state.bufs id = some buf) (nonempty : free ≠ []) :
    ∃ next, freeBuf config state id = some next ∧
      Consistent config next ((chain id).reverse ++ free) (Function.update chain id []) ∧
      next.bufs = Function.update state.bufs id (some ⟨0, none, none, 0⟩) := by
  have few := length_le_of_shared consistent.shared id
  obtain ⟨blocks, isFreed, freeList, frame⟩ := freeInfoList_spec
    (consistent.chains id buf isBuf) consistent.freeList (consistent.shared.nodup id)
    (show (chain id).length ≤ config.numBufBlock + 1 by omega)
  obtain ⟨block, rest, rfl⟩ := List.exists_cons_of_ne_nil nonempty
  refine ⟨⟨blocks, Function.update state.bufs id (some ⟨0, none, none, 0⟩)⟩, ?_,
    consistent.exchange freeList rfl ⟨rfl, Nat.zero_le _⟩ ?_ ?_, rfl⟩
  · rw [Vbm.freeBuf, isBuf, Option.bind_some, consistent.freeList.1]
    simp only [isFreed, Option.map_some]
  · rw [List.append_nil]
    exact ((List.reverse_perm _).append_right _).trans List.perm_append_comm
  · exact fun other isOther => frame other fun member => isOther (List.mem_append_right _ member)

theorem Consistent.initBuf {state : State} {free : List Nat} {chain : Nat → List Nat}
    (consistent : Consistent config state free chain) {id : Nat}
    (remaining : state.blocks.freeBlockRoot ≠ none)
    (unused : ∀ buf, state.bufs id = some buf → buf.pFirst = none) :
    Consistent config (initBuf config state id) free (Function.update chain id []) := by
  have empty : chain id = [] := by
    cases isBuf : state.bufs id with
    | none => exact consistent.absent id isBuf
    | some buf =>
      exact List.head?_eq_none_iff.mp
        ((consistent.chains id buf isBuf).root_eq.symm.trans (unused buf isBuf))
  have blocks : initModule config state.blocks = state.blocks := by
    obtain ⟨block, isRoot⟩ := Option.ne_none_iff_exists'.mp remaining
    rw [initModule, isRoot]
  rw [Vbm.initBuf, blocks]
  refine consistent.exchange consistent.freeList rfl ⟨rfl, Nat.zero_le _⟩ ?_ fun _ _ => rfl
  rw [empty]

/-- Calls that keep away from the end of the free list, on buffers that have no blocks
when they are initialised. -/
def Roomy (config : Config) (state : State) : Call → Prop
  | .initBuf id =>
    state.blocks.freeBlockRoot ≠ none ∧ ∀ buf, state.bufs id = some buf → buf.pFirst = none
  | .append id size =>
    ∀ buf, state.bufs id = some buf → freeBlocks config state.blocks ≠ [] →
      size ≤ room config buf + config.bufBlockSize * (freeBlocks config state.blocks).length
  | .appendBuf dest toAppend _ =>
    ∀ buf source, state.bufs dest = some buf → state.bufs toAppend = some source →
      freeBlocks config state.blocks ≠ [] →
        source.size ≤ (if dest = toAppend then 0 else room config buf) +
          config.bufBlockSize * ((freeBlocks config state.blocks).length +
            (nodesFrom state.blocks.nextInfo config.numBufBlock source.pFirst).length)
  | .freeBuf _ => True

theorem Consistent.appendBuf {state : State} {free : List Nat} {chain : Nat → List Nat}
    (consistent : Consistent config state free chain) {dest toAppend : Nat} {allocated : Bool}
    (roomy : Roomy config state (.appendBuf dest toAppend allocated)) {next : State}
    (stepped : appendBuf config state dest toAppend allocated = some next) :
    ∃ free' chain', Consistent config next free' chain' := by
  obtain ⟨buf, isBuf, stepped⟩ := Option.bind_eq_some_iff.mp stepped
  obtain ⟨source, isSource, stepped⟩ := Option.bind_eq_some_iff.mp stepped
  have unchanged : some state = some next → ∃ free' chain', Consistent config next free' chain' :=
    fun same => ⟨free, chain, Option.some_inj.mp same ▸ consistent⟩
  cases isRoot : state.blocks.freeBlockRoot with
  | none =>
    rw [isRoot] at stepped
    exact unchanged stepped
  | some root =>
    simp only [isRoot] at stepped
    split at stepped
    · exact unchanged stepped
    · split at stepped
      · cases stepped
      · split at stepped
        · exact unchanged stepped
        · have nonempty : free ≠ [] := by
            rintro rfl
            exact absurd (isRoot.symm.trans consistent.freeList.root_eq) (Option.some_ne_none root)
          have fits := roomy buf source isBuf isSource (by rwa [consistent.freeBlocks_eq])
          have few := length_le_of_shared consistent.shared toAppend
          rw [consistent.freeBlocks_eq,
            (consistent.chains toAppend source isSource).nodesFrom_eq (by omega)] at fits
          obtain ⟨freed, isFreed, freedConsistent, isBufs⟩ :=
            consistent.freeBuf isSource nonempty
          rw [isFreed, Option.bind_some] at stepped
          have destination : ∃ buf', freed.bufs dest = some buf' ∧
              room config buf' = if dest = toAppend then 0 else room config buf := by
            rw [isBufs]
            by_cases same : dest = toAppend
            · exact ⟨⟨0, none, none, 0⟩, by rw [same, Function.update_self], by simp [room, same]⟩
            · exact ⟨buf, by rw [Function.update_of_ne same, isBuf], by rw [if_neg same]⟩
          obtain ⟨buf', isBuf', isRoom⟩ := destination
          have fitsFreed : source.size ≤ room config buf' +
              config.bufBlockSize * ((chain toAppend).reverse ++ free).length := by
            rw [isRoom, List.length_append, List.length_reverse, Nat.add_comm _ free.length]
            exact fits
          obtain ⟨result, isAppended, isConsistent⟩ :=
            freedConsistent.append isBuf' fun _ => fitsFreed
          rw [isAppended, Option.some_inj] at stepped
          exact stepped ▸ isConsistent

theorem Consistent.step {state : State} {free : List Nat} {chain : Nat → List Nat}
    (consistent : Consistent config state free chain) {call : Call}
    (roomy : Roomy config state call) {next : State} (stepped : step config state call = some next) :
    ∃ free' chain', Consistent config next free' chain' := by
  cases call with
  | initBuf id =>
    cases stepped
    exact ⟨free, _, consistent.initBuf roomy.1 roomy.2⟩
  | append id size =>
    obtain ⟨buf, isBuf, -⟩ := Option.bind_eq_some_iff.mp stepped
    have fits := roomy buf isBuf
    rw [consistent.freeBlocks_eq] at fits
    obtain ⟨result, isAppended, isConsistent⟩ := consistent.append isBuf fits
    rw [Vbm.step, isAppended, Option.some_inj] at stepped
    exact stepped ▸ isConsistent
  | appendBuf dest toAppend allocated => exact consistent.appendBuf roomy stepped
  | freeBuf id =>
    obtain ⟨buf, isBuf, -⟩ := Option.bind_eq_some_iff.mp stepped
    by_cases nonempty : free = []
    · have root : state.blocks.freeBlockRoot = none := by
        rw [consistent.freeList.root_eq, nonempty]
        rfl
      rw [Vbm.step, Vbm.freeBuf, isBuf, Option.bind_some, root, Option.some_inj] at stepped
      exact ⟨free, chain, stepped ▸ consistent⟩
    · obtain ⟨result, isFreed, isConsistent, -⟩ := consistent.freeBuf isBuf nonempty
      rw [Vbm.step, isFreed, Option.some_inj] at stepped
      exact ⟨_, _, stepped ▸ isConsistent⟩

theorem linked_range' {next : Nat → Option Nat} {total : Nat}
    (isNext : ∀ block < total, next block = if block + 1 < total then some (block + 1) else none)
    {first : Nat} (count : Nat) (isTotal : first + count = total) :
    Linked next (if first < total then some first else none) (List.range' first count) := by
  induction count generalizing first with
  | zero => rw [if_neg (by omega)]; rfl
  | succ count induction =>
    rw [if_pos (by omega), List.range'_succ]
    refine ⟨rfl, ?_⟩
    rw [isNext first (by omega)]
    exact induction (by omega)

theorem started_consistent (config : Config) (usable : 0 < config.numBufBlock) :
    Consistent config (started config) (List.range config.numBufBlock) fun _ => [] := by
  refine ⟨⟨?_, ?_, fun _ _ => rfl, ?_, ?_, ?_⟩, ?_⟩
  · have isNext : ∀ block < config.numBufBlock, (started config).blocks.nextInfo block =
        if block + 1 < config.numBufBlock then some (block + 1) else none := by
      intro block inPool
      simp only [started, initModule, if_pos inPool]
      by_cases isLast : block = config.numBufBlock - 1
      · rw [if_neg (by simp [isLast]), if_neg (by omega)]
      · rw [if_pos isLast, if_pos (by omega)]
    have linked := linked_range' isNext config.numBufBlock (Nat.zero_add _)
    rwa [if_pos usable, ← List.range_eq_range'] at linked
  · intro id buf isBuf
    cases isBuf
  · intro owner
    rw [List.append_nil]
    exact List.nodup_range
  · exact fun owner other _ => List.disjoint_nil_left []
  · simp
  · intro id buf isBuf
    cases isBuf

/-- In a run in which every append finds the blocks that it needs, each block stays
with one owner. -/
theorem roomy_run_blocksOwned {config : Config} (usable : 0 < config.numBufBlock) {state : State}
    (reached : Reach (step config) (Roomy config) (started config) state) :
    BlocksOwned config state := by
  have consistent : ∃ free chain, Consistent config state free chain :=
    reached.invariant (fun state => ∃ free chain, Consistent config state free chain)
      ⟨_, _, started_consistent config usable⟩
      (fun _ _ _ inv roomy stepped => by
        obtain ⟨free, chain, consistent⟩ := inv
        exact consistent.step roomy stepped)
  obtain ⟨free, chain, consistent⟩ := consistent
  exact ⟨free, chain, consistent.toOwned⟩

/-- Two blocks of four bytes. -/
def small : Config := ⟨4, 2⟩

theorem roomy_run_blocksOwned_two_blocks :
    ∃ state, Reach (step small) (Roomy small) (started small) state ∧
      (state.bufs 0).map VariableBuffer.size = some 5 ∧ BlocksOwned small state := by
  have filled : ∃ state, Reach (step small) (Roomy small) (started small) state ∧
      (state.bufs 0).map VariableBuffer.size = some 5 := by
    refine ⟨_, (Reach.start.step (.initBuf 0) ⟨by decide, ?_⟩ rfl).step (.append 0 5) ?_ rfl, rfl⟩
    · intro buf isBuf _
      cases isBuf
      decide
    · intro buf isBuf
      cases isBuf
  obtain ⟨state, reached, isSize⟩ := filled
  exact ⟨state, reached, isSize, roomy_run_blocksOwned (by decide) reached⟩

/-- An append that runs out of blocks gives its first block back and keeps it. -/
theorem failed_append_shares_block :
    ∃ state, Reach (step small) (fun _ _ => True) (started small) state ∧
      ¬ BlocksOwned small state := by
  refine ⟨_, (Reach.start.step (.initBuf 0) trivial rfl).step (.append 0 12) trivial rfl, ?_⟩
  rintro ⟨free, chain, owned⟩
  have isFree : free = [1, 0] := owned.freeList.unique ⟨rfl, rfl, rfl⟩
  have isChain : chain 0 = [0] := (owned.chains 0 _ rfl).unique ⟨rfl, rfl⟩
  have nodup := owned.shared.nodup 0
  rw [isFree, isChain] at nodup
  exact absurd nodup (by decide)

end Wisebot.Vbm
