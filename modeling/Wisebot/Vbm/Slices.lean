import Wisebot.Vbm.Contents

namespace Wisebot.Vbm

open Wisebot.Lib

/-! Buffers behave as byte strings as long as the free list does not run out. -/

variable {config : Config}

section

variable {bytes : Nat → Mem} {used : Nat}

theorem length_chainBytes (front : List Nat) (last : Nat) :
    (chainBytes config bytes used (front ++ [last])).length =
      front.length * config.bufBlockSize + used := by
  rw [chainBytes_concat, List.length_append, Mem.length_read, List.length_flatMap]
  simp

theorem chainBytes_drop {chain : List Nat} {count : Nat} (inside : count < chain.length) :
    chainBytes config bytes used (chain.drop count) =
      (chainBytes config bytes used chain).drop (count * config.bufBlockSize) := by
  induction count generalizing chain with
  | zero => simp
  | succ count induction =>
    match chain, inside with
    | [_], inside => simp at inside
    | block :: next :: rest, inside =>
      rw [List.drop_succ_cons, induction (by simpa using inside), chainBytes, Nat.succ_mul,
        Nat.add_comm, ← List.drop_drop, List.drop_left' Mem.length_read]

theorem skipBlocks_eq {next : Nat → Option Nat} {root : Option Nat} {chain : List Nat}
    (linked : Linked next root chain) {count : Nat} (inside : count < chain.length) :
    ∃ block rest, chain.drop count = block :: rest ∧
      skipBlocks next count root = some (some block) ∧ Linked next (some block) (block :: rest) := by
  induction count generalizing root chain with
  | zero =>
    match chain, linked, inside with
    | block :: rest, linked, _ =>
      refine ⟨block, rest, rfl, ?_, rfl, linked.2⟩
      rw [linked.1]
      rfl
  | succ count induction =>
    match chain, linked, inside with
    | block :: rest, linked, inside =>
      obtain ⟨found, others, split, skipped, isLinked⟩ :=
        induction linked.2 (by simpa using inside)
      exact ⟨found, others, split, by rw [linked.1, skipBlocks, skipped], isLinked⟩

theorem getBlocks_eq {heap : Heap} {block : Nat} {rest : List Nat}
    (linked : Linked heap.state.blocks.nextInfo (some block) (block :: rest))
    (fits : used ≤ config.bufBlockSize) {fuel blockOffset size : Nat}
    (inBlock : blockOffset < config.bufBlockSize) (some_ : 0 < size) (enough : size ≤ fuel)
    (inside : blockOffset + size ≤ (chainBytes config heap.bytes used (block :: rest)).length) :
    getBlocks config heap fuel block blockOffset size =
      some (((chainBytes config heap.bytes used (block :: rest)).drop blockOffset).take size) := by
  induction rest generalizing block fuel blockOffset size with
  | nil =>
    obtain ⟨fuel, rfl⟩ := Nat.exists_eq_succ_of_ne_zero (show fuel ≠ 0 by omega)
    rw [chainBytes, Mem.length_read] at inside
    rw [getBlocks, Nat.min_eq_right (by omega), Nat.sub_self, if_pos rfl, chainBytes,
      Mem.read_slice _ _ inside, Nat.zero_add]
  | cons next rest induction =>
    obtain ⟨fuel, rfl⟩ := Nat.exists_eq_succ_of_ne_zero (show fuel ≠ 0 by omega)
    rw [chainBytes, List.length_append, Mem.length_read] at inside
    have dropped : ((heap.bytes block).read 0 config.bufBlockSize).drop blockOffset =
        (heap.bytes block).read blockOffset (config.bufBlockSize - blockOffset) := by
      have slice := Mem.read_slice (heap.bytes block) 0
        (show blockOffset + (config.bufBlockSize - blockOffset) ≤ config.bufBlockSize by omega)
      rw [Nat.zero_add, List.take_of_length_le (by simp)] at slice
      exact slice
    rw [getBlocks, chainBytes, List.drop_append_of_le_length (by rw [Mem.length_read]; omega),
      dropped]
    by_cases within : size ≤ config.bufBlockSize - blockOffset
    · rw [Nat.min_eq_right within, Nat.sub_self, if_pos rfl,
        List.take_append_of_le_length (by rw [Mem.length_read]; exact within),
        Mem.take_read _ _ within]
    · rw [Nat.min_eq_left (by omega), if_neg (by omega), linked.2.1]
      have later := induction (linked.2.1 ▸ linked.2) (show 0 < config.bufBlockSize by omega)
        (show 0 < size - (config.bufBlockSize - blockOffset) by omega)
        (show size - (config.bufBlockSize - blockOffset) ≤ fuel by omega) (by omega)
      simp only [later, Option.map_some, List.drop_zero]
      have all : ((heap.bytes block).read blockOffset
          (config.bufBlockSize - blockOffset)).length ≤ size := by
        rw [Mem.length_read]
        omega
      rw [List.take_append, List.take_of_length_le all, Mem.length_read]

end

section

variable {blocks : Blocks} (bytes : Nat → Mem) {buf : VariableBuffer} {free own : List Nat}
  {source : List UInt8}

/-- The result of an append that found enough blocks, with the bytes of the buffer. -/
def Copied (config : Config) (blocks : Blocks) (bytes : Nat → Mem) (buf : VariableBuffer)
    (free own : List Nat) (content : List UInt8) (blocks' : Blocks) (bytes' : Nat → Mem)
    (buf' : VariableBuffer) : Prop :=
  ∃ free' own', Appending config blocks' buf' free' own' ∧ (free' ++ own').Perm (free ++ own) ∧
    buf'.size = buf.size ∧
    (∀ block, block ∉ free ++ own → blocks'.nextInfo block = blocks.nextInfo block) ∧
    (∀ block, block ∉ free ++ own → bytes' block = bytes block) ∧
    chainBytes config bytes' buf'.lastBlockUsedBytes own' = content

theorem copyBytes_last {last : Nat}
    (appending : Appending config blocks buf free (own ++ [last]))
    (fits : source.length ≤ config.bufBlockSize - buf.lastBlockUsedBytes)
    {oneBlock : Bool} (isFirst : oneBlock = true ∨ buf.lastBlockUsedBytes = 0) (fuel : Nat) :
    ∃ blocks' bytes' buf', copyBytes config (fuel + 1) blocks bytes buf source oneBlock =
        some (true, blocks', bytes', buf') ∧
      Copied config blocks bytes buf free (own ++ [last])
        (chainBytes config bytes buf.lastBlockUsedBytes (own ++ [last]) ++ source)
        blocks' bytes' buf' := by
  have used := appending.bufferOk.used
  have isLast : buf.pLast = some last := by
    rw [appending.bufferOk.last]
    simp
  have fresh : last ∉ own := by
    have nodup := (List.nodup_append'.mp appending.nodup).2.1
    intro member
    exact List.disjoint_of_nodup_append nodup member (by simp)
  refine ⟨blocks, Function.update bytes last ((bytes last).write buf.lastBlockUsedBytes source),
    { buf with lastBlockUsedBytes := buf.lastBlockUsedBytes + source.length }, ?_,
    free, own ++ [last], ⟨appending.freeList, appending.ownList, appending.nodup,
      appending.bufferOk.last, ?_⟩, List.Perm.refl _, rfl, fun block _ => rfl, ?_,
      chainBytes_write fresh source⟩
  · rw [copyBytes, isLast]
    simp only [Nat.min_eq_right fits, Nat.sub_self, if_true, List.take_length]
    rcases isFirst with rfl | isZero
    · rfl
    · cases oneBlock with
      | true => rfl
      | false => simp [isZero]
  · show buf.lastBlockUsedBytes + source.length ≤ config.bufBlockSize
    omega
  · intro block other
    refine Function.update_of_ne (show block ≠ last from ?_) _ _
    rintro rfl
    exact other (by simp)

theorem copyBytes_spec {last : Nat}
    (appending : Appending config blocks buf free (own ++ [last]))
    (fits : source.length ≤ config.bufBlockSize - buf.lastBlockUsedBytes +
      config.bufBlockSize * free.length)
    {oneBlock : Bool} (isFirst : oneBlock = true ∨ buf.lastBlockUsedBytes = 0)
    {fuel : Nat} (enough : free.length < fuel) :
    ∃ blocks' bytes' buf', copyBytes config fuel blocks bytes buf source oneBlock =
        some (true, blocks', bytes', buf') ∧
      Copied config blocks bytes buf free (own ++ [last])
        (chainBytes config bytes buf.lastBlockUsedBytes (own ++ [last]) ++ source)
        blocks' bytes' buf' := by
  induction free generalizing blocks bytes buf own last source oneBlock fuel with
  | nil =>
    obtain ⟨fuel, rfl⟩ := Nat.exists_eq_succ_of_ne_zero (Nat.ne_zero_of_lt enough)
    exact copyBytes_last bytes appending (by simpa using fits) isFirst fuel
  | cons block free induction =>
    obtain ⟨fuel, rfl⟩ := Nat.exists_eq_succ_of_ne_zero (Nat.ne_zero_of_lt enough)
    rw [List.length_cons] at enough fits
    by_cases small : source.length ≤ config.bufBlockSize - buf.lastBlockUsedBytes
    · exact copyBytes_last bytes appending small isFirst fuel
    · have used := appending.bufferOk.used
      obtain ⟨filled, isFilled⟩ : ∃ filled,
          filled = config.bufBlockSize - buf.lastBlockUsedBytes := ⟨_, rfl⟩
      have copied : min (config.bufBlockSize - buf.lastBlockUsedBytes) source.length =
          filled := by omega
      have isLast : buf.pLast = some last := by
        rw [appending.bufferOk.last]
        simp
      have fresh : last ∉ own := by
        have nodup := (List.nodup_append'.mp appending.nodup).2.1
        intro member
        exact List.disjoint_of_nodup_append nodup member (by simp)
      rw [Nat.mul_succ] at fits
      have fitsNext : (source.drop filled).length ≤
          config.bufBlockSize - 0 + config.bufBlockSize * free.length := by
        rw [List.length_drop]
        omega
      obtain ⟨blocks', bytes', buf', isCopied, free', own', result, isPerm, isSize, frame,
        bytesFrame, content⟩ := @induction _ (Function.update bytes last
          ((bytes last).write buf.lastBlockUsedBytes (source.take filled))) _ _ _ _
          appending.extend fitsNext _ (.inr rfl) _ (Nat.lt_of_succ_lt_succ enough)
      refine ⟨blocks', bytes', buf', ?_, free', own', result, isPerm.trans ?_, isSize, ?_, ?_, ?_⟩
      · rw [copyBytes, isLast]
        simp only [copied, if_neg (show ¬ source.length - filled = 0 by omega),
          popOneBlock_spec appending.freeList]
        exact isCopied
      · rw [← List.append_assoc]
        exact List.perm_append_singleton block _
      · intro other isOther
        rw [List.cons_append, List.mem_cons, not_or] at isOther
        have notLast : other ≠ last := fun same => isOther.2 (by simp [same])
        rw [frame other (by simpa [isOther.1] using isOther.2)]
        exact (Function.update_of_ne notLast _ _).trans (Function.update_of_ne isOther.1 _ _)
      · intro other isOther
        rw [List.cons_append, List.mem_cons, not_or] at isOther
        have notLast : other ≠ last := fun same => isOther.2 (by simp [same])
        rw [bytesFrame other (by simpa [isOther.1] using isOther.2)]
        exact Function.update_of_ne notLast _ _
      · have length : (source.take filled).length = filled := by
          rw [List.length_take]
          omega
        have written : chainBytes config (Function.update bytes last
            ((bytes last).write buf.lastBlockUsedBytes (source.take filled)))
            (buf.lastBlockUsedBytes + (source.take filled).length) (own ++ [last]) = _ :=
          chainBytes_write fresh (source.take filled)
        rw [length, isFilled, Nat.add_sub_cancel' used, ← isFilled] at written
        rw [content, chainBytes_extend, written, List.append_assoc, List.take_append_drop]

theorem initBufFirstPointer_bytes {blocks' : Blocks} {buf' : VariableBuffer}
    {free' own' : List Nat} (appending : Appending config blocks buf free own)
    (run : initBufFirstPointer blocks buf = some (blocks', buf'))
    (started : Appending config blocks' buf' free' own') :
    buf'.size = buf.size ∧ chainBytes config bytes buf'.lastBlockUsedBytes own' =
      chainBytes config bytes buf.lastBlockUsedBytes own := by
  rw [initBufFirstPointer] at run
  cases isFirst : buf.pFirst with
  | some first =>
    rw [isFirst] at run
    obtain ⟨rfl, rfl⟩ := Prod.mk.inj (Option.some.inj run)
    rw [started.ownList.unique appending.ownList]
    exact ⟨rfl, rfl⟩
  | none =>
    obtain rfl : own = [] := List.head?_eq_none_iff.mp
      (appending.ownList.root_eq.symm.trans isFirst)
    rw [isFirst] at run
    obtain ⟨⟨block, popped⟩, pop, same⟩ := Option.map_eq_some_iff.mp run
    obtain ⟨rfl, rfl⟩ := Prod.mk.inj same
    have isEnd : popped.nextInfo block = none := by
      rw [popOneBlock] at pop
      split at pop
      · cases pop
      · obtain ⟨rfl, rfl⟩ := Prod.mk.inj (Option.some.inj pop)
        exact Function.update_self _ _ _
    have single : own' = [block] := started.ownList.unique ⟨rfl, isEnd⟩
    rw [single]
    exact ⟨rfl, rfl⟩

theorem appendData_spec (appending : Appending config blocks buf free own) (nonempty : free ≠ [])
    (few : free.length ≤ config.numBufBlock)
    (fits : source.length ≤ room config buf + config.bufBlockSize * free.length) :
    ∃ blocks' bytes' buf', appendData config blocks bytes buf source =
        some (.success, blocks', bytes', { buf' with size := buf.size + source.length }) ∧
      Copied config blocks bytes buf free own
        (chainBytes config bytes buf.lastBlockUsedBytes own ++ source) blocks' bytes' buf' := by
  obtain ⟨blocks₁, buf₁, free₁, before, last, isStarted, started, isPerm₁, fewer, capacity, frame₁⟩ :=
    initBufFirstPointer_spec appending nonempty
  obtain ⟨size₁, content₁⟩ := initBufFirstPointer_bytes bytes appending isStarted started
  have enough : free₁.length < source.length + config.numBufBlock + 2 := by omega
  obtain ⟨blocks', bytes', buf', isCopied, free', own', result, isPerm, isSize, frame, bytesFrame,
    content⟩ := copyBytes_spec bytes started (Nat.le_trans fits capacity) (.inl rfl) enough
  obtain ⟨block, rest, rfl⟩ := List.exists_cons_of_ne_nil nonempty
  refine ⟨blocks', bytes', buf', ?_, free', own', result, isPerm.trans isPerm₁, isSize.trans size₁,
    ?_, ?_, by rw [content, content₁]⟩
  · rw [appendData, appending.freeList.1]
    simp only [isStarted, isCopied, isSize, size₁]
  · intro other isOther
    rw [frame other fun member => isOther (isPerm₁.subset member), frame₁ other isOther]
  · intro other isOther
    exact bytesFrame other fun member => isOther (isPerm₁.subset member)

end

structure Stored (config : Config) (heap : Heap) (free : List Nat) (chain : Nat → List Nat)
    (contents : Nat → List UInt8) : Prop extends Consistent config heap.state free chain where
  held : ∀ id buf, heap.state.bufs id = some buf →
    chainBytes config heap.bytes buf.lastBlockUsedBytes (chain id) = contents id ∧
      buf.size = (contents id).length

section

variable {heap next : Heap} {free : List Nat} {chain : Nat → List Nat}
  {contents : Nat → List UInt8} {id : Nat} {buf : VariableBuffer} {source : List UInt8}
  {ret : Ret}

theorem Stored.exchange (stored : Stored config heap free chain contents) {state : State}
    {bytes : Nat → Mem} {free' own : List Nat} {content : List UInt8}
    (consistent : Consistent config state free' (Function.update chain id own))
    (bufs : state.bufs = Function.update heap.state.bufs id (some buf))
    (frame : ∀ block, block ∉ free ++ chain id → bytes block = heap.bytes block)
    (held : chainBytes config bytes buf.lastBlockUsedBytes own = content)
    (size : buf.size = content.length) :
    Stored config ⟨state, bytes⟩ free' (Function.update chain id own)
      (Function.update contents id content) where
  toConsistent := consistent
  held := by
    intro other otherBuf isBuf
    rw [show (Heap.mk state bytes).state.bufs = _ from bufs] at isBuf
    by_cases same : other = id
    · subst same
      rw [Function.update_self] at isBuf ⊢
      obtain rfl := Option.some.inj isBuf
      rw [Function.update_self]
      exact ⟨held, size⟩
    · rw [Function.update_of_ne same] at isBuf ⊢
      rw [Function.update_of_ne same]
      obtain ⟨isContent, isSize⟩ := stored.held other otherBuf isBuf
      refine ⟨?_, isSize⟩
      rw [← isContent]
      refine chainBytes_congr fun block member => frame block ?_
      intro isChanged
      rcases List.mem_append.mp isChanged with isFree | isOwn
      · exact stored.shared.disjoint other isFree member
      · exact stored.shared.apart other id same member isOwn

theorem Stored.appendTo (stored : Stored config heap free chain contents)
    (isBuf : heap.state.bufs id = some buf) (nonempty : free ≠ [])
    (fits : source.length ≤ room config buf + config.bufBlockSize * free.length) :
    ∃ next free' chain', appendTo config heap id source = some (.success, next) ∧
      Stored config next free' chain' (Function.update contents id (contents id ++ source)) := by
  obtain ⟨held, size⟩ := stored.held id buf isBuf
  obtain ⟨blocks', bytes', buf', isAppended, free', own', result, isPerm, isSize, frame, bytesFrame,
    content⟩ := appendData_spec heap.bytes (stored.appending isBuf) nonempty
      stored.free_length fits
  have consistent : Consistent config ⟨blocks', Function.update heap.state.bufs id
      (some { buf' with size := buf.size + source.length })⟩ free' (Function.update chain id own') :=
    stored.toConsistent.exchange result.freeList result.ownList
      ⟨result.bufferOk.last, result.bufferOk.used⟩ isPerm frame
  refine ⟨_, free', _, ?_, stored.exchange consistent rfl bytesFrame ?_ ?_⟩
  · rw [Vbm.appendTo, isBuf, Option.bind_some, isAppended]
    rfl
  · rw [← held]
    exact content
  · rw [List.length_append, ← size]

theorem Stored.appendTo_exhausted (stored : Stored config heap [] chain contents)
    (isBuf : heap.state.bufs id = some buf) :
    Vbm.appendTo config heap id source = some (.fail, heap) := by
  have root : heap.state.blocks.freeBlockRoot = none := stored.freeList.root_eq
  have same : (⟨⟨heap.state.blocks, Function.update heap.state.bufs id (some buf)⟩, heap.bytes⟩ :
      Heap) = heap := by
    rw [← isBuf, Function.update_eq_self]
  rw [Vbm.appendTo, isBuf, Option.bind_some, appendData, root]
  exact congrArg (fun heap => some (Ret.fail, heap)) same

theorem Stored.freeBuf (stored : Stored config heap free chain contents)
    (isBuf : heap.state.bufs id = some buf) (nonempty : free ≠ []) :
    ∃ state, freeBuf config heap.state id = some state ∧
      Stored config { heap with state := state } ((chain id).reverse ++ free)
        (Function.update chain id []) (Function.update contents id []) ∧
      state.bufs = Function.update heap.state.bufs id (some ⟨0, none, none, 0⟩) := by
  obtain ⟨state, isFreed, consistent, bufs⟩ := stored.toConsistent.freeBuf isBuf nonempty
  exact ⟨state, isFreed, stored.exchange consistent bufs (fun _ _ => rfl) rfl rfl, bufs⟩

theorem Stored.initBuf (stored : Stored config heap free chain contents)
    (remaining : heap.state.blocks.freeBlockRoot ≠ none)
    (unused : ∀ buf, heap.state.bufs id = some buf → buf.pFirst = none) :
    Stored config { heap with state := initBuf config heap.state id } free
      (Function.update chain id []) (Function.update contents id []) :=
  stored.exchange (stored.toConsistent.initBuf remaining unused) rfl (fun _ _ => rfl) rfl rfl

theorem Stored.get (stored : Stored config heap free chain contents)
    (isBuf : heap.state.bufs id = some buf) (nonempty : free ≠ []) {offset size : Nat}
    (some_ : 0 < size) (inside : offset + size ≤ (contents id).length) :
    get config heap id offset size = some (.ok (((contents id).drop offset).take size)) := by
  obtain ⟨held, isSize⟩ := stored.held id buf isBuf
  have used := (stored.buffers id buf isBuf).used
  obtain ⟨root, rest, rfl⟩ := List.exists_cons_of_ne_nil nonempty
  rcases List.eq_nil_or_concat (chain id) with none_ | ⟨front, last, split⟩
  · rw [none_] at held
    rw [← held] at inside
    simp [chainBytes] at inside
    omega
  · rw [List.concat_eq_append] at split
    have length : (chainBytes config heap.bytes buf.lastBlockUsedBytes (front ++ [last])).length =
        front.length * config.bufBlockSize + buf.lastBlockUsedBytes := length_chainBytes front last
    rw [← split, held] at length
    have positive : 0 < config.bufBlockSize := by
      rcases Nat.eq_zero_or_pos config.bufBlockSize with zero | positive
      · rw [zero] at length used
        omega
      · exact positive
    have inChain : offset / config.bufBlockSize < (chain id).length := by
      rw [Nat.div_lt_iff_lt_mul positive, split, List.length_append, List.length_singleton,
        Nat.add_mul]
      omega
    obtain ⟨block, others, dropped, skipped, linked⟩ :=
      skipBlocks_eq (stored.chains id buf isBuf) inChain
    have suffix : chainBytes config heap.bytes buf.lastBlockUsedBytes
        ((chain id).drop (offset / config.bufBlockSize)) = _ := chainBytes_drop inChain
    rw [dropped, held] at suffix
    have divided := Nat.div_add_mod' offset config.bufBlockSize
    have found := getBlocks_eq linked used (Nat.mod_lt offset positive) some_ (le_refl size) (by
      rw [suffix, List.length_drop]
      omega)
    rw [Vbm.get, isBuf, Option.bind_some, stored.freeList.1]
    simp only [if_neg positive.ne', if_neg (show ¬ buf.size < size + offset by omega),
      if_neg some_.ne', skipped, found, Option.map_some]
    rw [suffix, List.drop_drop, divided]

theorem get_exhausted (isBuf : heap.state.bufs id = some buf)
    (root : heap.state.blocks.freeBlockRoot = none) (offset size : Nat) :
    Vbm.get config heap id offset size = some (.error .fail) := by
  rw [Vbm.get, isBuf, Option.bind_some, root]

theorem Stored.appendBufTo (stored : Stored config heap free chain contents)
    {dest toAppend : Nat} {allocated : Bool}
    (roomy : Roomy config heap.state (.appendBuf dest toAppend allocated))
    (run : appendBufTo config heap dest toAppend allocated = some (ret, next)) :
    ∃ free' chain', Stored config next free' chain'
      (track contents (.appendBuf dest toAppend allocated) ret) := by
  obtain ⟨buf, isBuf, run⟩ := Option.bind_eq_some_iff.mp run
  obtain ⟨origin, isOrigin, run⟩ := Option.bind_eq_some_iff.mp run
  have unchanged : some (Ret.fail, heap) = some (ret, next) → ∃ free' chain',
      Stored config next free' chain' (track contents (.appendBuf dest toAppend allocated) ret) := by
    intro same
    obtain ⟨rfl, rfl⟩ := Prod.mk.inj (Option.some.inj same)
    exact ⟨free, chain, stored⟩
  cases isRoot : heap.state.blocks.freeBlockRoot with
  | none =>
    rw [isRoot] at run
    exact unchanged run
  | some root =>
    simp only [isRoot] at run
    have nonempty : free ≠ [] := by
      rintro rfl
      exact absurd (isRoot.symm.trans stored.freeList.root_eq) (Option.some_ne_none root)
    obtain ⟨-, size⟩ := stored.held toAppend origin isOrigin
    split at run
    · exact unchanged run
    · rcases Nat.eq_zero_or_pos origin.size with empty | some_
      · have refused : Vbm.get config heap toAppend 0 origin.size = none ∨
            Vbm.get config heap toAppend 0 origin.size = some (.error .fail) := by
          rw [Vbm.get, isOrigin, Option.bind_some, isRoot, empty]
          by_cases noBytes : config.bufBlockSize = 0
          · simp [noBytes]
          · simp [noBytes]
        rcases refused with undefined | refused
        · rw [undefined] at run
          cases run
        · rw [refused] at run
          exact unchanged run
      · have got := stored.get isOrigin nonempty some_
          (show 0 + origin.size ≤ (contents toAppend).length by omega)
        rw [List.drop_zero, size, List.take_length] at got
        rw [size, got] at run
        simp only [lt_irrefl, if_false] at run
        obtain ⟨state, isFreed, freed, bufs⟩ := stored.freeBuf isOrigin nonempty
        rw [isFreed, Option.bind_some] at run
        obtain ⟨⟨code, final⟩, appended, same⟩ := Option.map_eq_some_iff.mp run
        have fits := roomy buf origin isBuf isOrigin (by rwa [stored.freeBlocks_eq])
        have few := length_le_of_shared stored.shared toAppend
        rw [stored.freeBlocks_eq,
          (stored.chains toAppend origin isOrigin).nodesFrom_eq (by omega)] at fits
        have destination : ∃ buf', state.bufs dest = some buf' ∧
            room config buf' = if dest = toAppend then 0 else room config buf := by
          rw [bufs]
          by_cases itself : dest = toAppend
          · exact ⟨⟨0, none, none, 0⟩, by rw [itself, Function.update_self],
              by simp [room, itself]⟩
          · exact ⟨buf, by rw [Function.update_of_ne itself, isBuf], by rw [if_neg itself]⟩
        obtain ⟨buf', isBuf', isRoom⟩ := destination
        have fitsFreed : (contents toAppend).length ≤ room config buf' +
            config.bufBlockSize * ((chain toAppend).reverse ++ free).length := by
          rw [isRoom, List.length_append, List.length_reverse, Nat.add_comm _ free.length,
            ← size]
          exact fits
        obtain ⟨result, free', chain', isAppended, kept⟩ :=
          freed.appendTo isBuf' (by simp [nonempty]) fitsFreed
        rw [isAppended] at appended
        obtain ⟨rfl, rfl⟩ := Prod.mk.inj (Option.some.inj appended)
        obtain ⟨rfl, rfl⟩ := Prod.mk.inj same
        refine ⟨free', chain', ?_⟩
        rw [if_pos rfl]
        show Stored config result free' chain' (Function.update
          (Function.update contents toAppend []) dest
            ((if dest = toAppend then [] else contents dest) ++ contents toAppend))
        rwa [Function.update_apply] at kept

theorem Stored.perform (stored : Stored config heap free chain contents) {operation : Operation}
    (roomy : Roomy config heap.state operation.call)
    (run : perform config heap operation = some (ret, next)) :
    ∃ free' chain', Stored config next free' chain' (track contents operation ret) := by
  cases operation with
  | initBuf id =>
    obtain ⟨rfl, rfl⟩ := Prod.mk.inj (Option.some.inj run)
    exact ⟨free, _, stored.initBuf roomy.1 roomy.2⟩
  | append id source =>
    obtain ⟨buf, isBuf, -⟩ := Option.bind_eq_some_iff.mp run
    by_cases exhausted : free = []
    · subst exhausted
      have refused : Vbm.perform config heap (.append id source) = some (.fail, heap) :=
        stored.appendTo_exhausted isBuf
      rw [refused] at run
      obtain ⟨rfl, rfl⟩ := Prod.mk.inj (Option.some.inj run)
      exact ⟨[], chain, stored⟩
    · have fits := roomy buf isBuf (by rwa [stored.freeBlocks_eq])
      rw [stored.freeBlocks_eq] at fits
      obtain ⟨result, free', chain', appended, kept⟩ := stored.appendTo isBuf exhausted fits
      have same : some (Ret.success, result) = some (ret, next) := appended.symm.trans run
      obtain ⟨rfl, rfl⟩ := Prod.mk.inj (Option.some.inj same)
      exact ⟨free', chain', kept⟩
  | appendBuf dest toAppend allocated => exact stored.appendBufTo roomy run
  | freeBuf id =>
    obtain ⟨state, freed, same⟩ := Option.map_eq_some_iff.mp run
    obtain ⟨buf, isBuf, -⟩ := Option.bind_eq_some_iff.mp freed
    by_cases exhausted : free = []
    · subst exhausted
      have root : heap.state.blocks.freeBlockRoot = none := stored.freeList.root_eq
      rw [Vbm.freeBuf, isBuf, Option.bind_some, root] at freed
      obtain rfl := Option.some.inj freed
      rw [if_pos root] at same
      obtain ⟨rfl, rfl⟩ := Prod.mk.inj same
      exact ⟨[], chain, stored⟩
    · obtain ⟨result, isFreed, kept, -⟩ := stored.freeBuf isBuf exhausted
      have root : heap.state.blocks.freeBlockRoot ≠ none := by
        intro none_
        exact exhausted (List.head?_eq_none_iff.mp (stored.freeList.root_eq.symm.trans none_))
      rw [isFreed] at freed
      obtain rfl := Option.some.inj freed
      rw [if_neg root] at same
      obtain ⟨rfl, rfl⟩ := Prod.mk.inj same
      exact ⟨_, _, kept⟩

theorem Stored.performAll (stored : Stored config heap free chain contents)
    {operations : List Operation} (roomy : RoomyRun config heap operations) {rets : List Ret}
    (run : performAll config heap operations = some (rets, next)) :
    ∃ free' chain', Stored config next free' chain' (contentsOf contents operations rets) := by
  induction operations generalizing heap free chain contents rets with
  | nil =>
    obtain ⟨rfl, rfl⟩ := Prod.mk.inj (Option.some.inj run)
    exact ⟨free, chain, stored⟩
  | cons operation operations induction =>
    obtain ⟨⟨ret, after⟩, performed, later⟩ := Option.bind_eq_some_iff.mp run
    obtain ⟨⟨rest, final⟩, isRest, same⟩ := Option.map_eq_some_iff.mp later
    obtain ⟨rfl, rfl⟩ := Prod.mk.inj same
    obtain ⟨_, _, kept⟩ := stored.perform roomy.1 performed
    exact induction kept (roomy.2 ret after performed) isRest

end

/-- In a run in which every append finds the blocks that it needs a buffer is the
string of its appended bytes: `VBM_get` delivers its slices, just while a block is
free, and a failed append changes nothing that any `VBM_get` delivers. -/
theorem roomy_run_slices {config : Config} (usable : 0 < config.numBufBlock) {bytes : Nat → Mem}
    {operations : List Operation} {rets : List Ret} {heap : Heap}
    (roomy : RoomyRun config ⟨started config, bytes⟩ operations)
    (run : performAll config ⟨started config, bytes⟩ operations = some (rets, heap)) :
    (∀ id offset size, 0 < size →
      offset + size ≤ (contentsOf (fun _ => []) operations rets id).length →
      heap.state.bufs id ≠ none →
      (get config heap id offset size = some (.ok
        (((contentsOf (fun _ => []) operations rets id).drop offset).take size)) ↔
          heap.state.blocks.freeBlockRoot ≠ none)) ∧
    ∀ id source ret next, Roomy config heap.state (.append id source.length) →
      perform config heap (.append id source) = some (ret, next) → ret ≠ .success →
      ∀ other offset size, get config next other offset size = get config heap other offset size := by
  have start : Stored config ⟨started config, bytes⟩ (List.range config.numBufBlock)
      (fun _ => []) (fun _ => []) :=
    { toConsistent := started_consistent config usable
      held := fun id buf isBuf => by cases isBuf }
  obtain ⟨free, chain, stored⟩ := start.performAll roomy run
  constructor
  · intro id offset size some_ inside present
    obtain ⟨buf, isBuf⟩ := Option.ne_none_iff_exists'.mp present
    constructor
    · intro delivered root
      rw [get_exhausted isBuf root] at delivered
      cases delivered
    · intro root
      refine stored.get isBuf ?_ some_ inside
      rintro rfl
      exact root stored.freeList.root_eq
  · intro id source ret next fits appended failed other offset size
    obtain ⟨buf, isBuf, -⟩ := Option.bind_eq_some_iff.mp appended
    by_cases exhausted : free = []
    · subst exhausted
      have refused : perform config heap (.append id source) = some (.fail, heap) :=
        stored.appendTo_exhausted isBuf
      rw [refused] at appended
      obtain ⟨-, rfl⟩ := Prod.mk.inj (Option.some.inj appended)
      rfl
    · have enough := fits buf isBuf (by rwa [stored.freeBlocks_eq])
      rw [stored.freeBlocks_eq] at enough
      obtain ⟨result, _, _, succeeded, -⟩ := stored.appendTo isBuf exhausted enough
      have same : some (Ret.success, result) = some (ret, next) := succeeded.symm.trans appended
      exact absurd (Prod.mk.inj (Option.some.inj same)).1.symm failed

/-- Five bytes in three blocks of four bytes, read across the end of the first block. -/
theorem roomy_run_slices_across_blocks :
    ∃ rets heap,
      performAll ⟨4, 3⟩ ⟨started ⟨4, 3⟩, fun _ _ => 0⟩
        [.initBuf 0, .append 0 [1, 2, 3], .append 0 [4, 5]] = some (rets, heap) ∧
      get ⟨4, 3⟩ heap 0 2 3 = some (.ok [3, 4, 5]) := by
  have roomy : RoomyRun ⟨4, 3⟩ ⟨started ⟨4, 3⟩, fun _ _ => 0⟩
      [.initBuf 0, .append 0 [1, 2, 3], .append 0 [4, 5]] := by
    refine ⟨⟨by decide, ?_⟩, fun ret next run => ⟨?_, fun ret' next' run' => ⟨?_, ?_⟩⟩⟩
    · intro buf isBuf
      cases isBuf
    · cases run
      intro buf isBuf _
      cases isBuf
      decide
    · cases run
      cases run'
      intro buf isBuf _
      cases isBuf
      decide
    · exact fun _ _ _ => trivial
  obtain ⟨rets, heap, run, isRets, present, root⟩ : ∃ rets heap,
      performAll ⟨4, 3⟩ ⟨started ⟨4, 3⟩, fun _ _ => 0⟩
        [.initBuf 0, .append 0 [1, 2, 3], .append 0 [4, 5]] = some (rets, heap) ∧
      rets = [.success, .success, .success] ∧ heap.state.bufs 0 ≠ none ∧
      heap.state.blocks.freeBlockRoot ≠ none :=
    ⟨_, _, rfl, rfl, Option.some_ne_none _, Option.some_ne_none _⟩
  refine ⟨rets, heap, run, ?_⟩
  have delivered := ((roomy_run_slices (by decide) roomy run).1 0 2 3 (by decide)
    (by rw [isRets]; decide) present).mpr root
  rw [delivered, isRets]
  decide

/-- The last free block is used up by an append that succeeds; what it wrote is not
delivered. -/
theorem used_up_blocks_not_delivered :
    ¬ ∀ (config : Config) (bytes : Nat → Mem) (operations : List Operation) (rets : List Ret)
        (heap : Heap), 0 < config.numBufBlock → 0 < config.bufBlockSize →
      performAll config ⟨started config, bytes⟩ operations = some (rets, heap) →
      ∀ id offset size, 0 < size →
        offset + size ≤ (contentsOf (fun _ => []) operations rets id).length →
        get config heap id offset size = some (.ok
          (((contentsOf (fun _ => []) operations rets id).drop offset).take size)) := by
  intro slices
  have delivered := slices small (fun _ _ => 0) [.initBuf 0, .append 0 [1, 2, 3, 4, 5, 6, 7, 8]] _ _
    (by decide) (by decide) rfl 0 0 8 (by decide) (by decide)
  exact absurd delivered (by decide)

end Wisebot.Vbm
