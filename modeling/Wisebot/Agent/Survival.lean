import Wisebot.Agent.Reception

namespace Wisebot.Agent.Answers

open Wisebot.Lib Wisebot.Lib.Reading Wisebot.Agent.Reception

/-! What an agent does with arbitrary bytes in the place of answers. -/

def advance (state : State) (count : Nat) : State :=
  { state with buf := ⟨state.buf.contents, state.buf.cursor + count⟩ }

def recordLength (dochitCnt : Int) : Nat := 80 + dochitSize * dochitCnt.toNat

/-- The numbers of hits of the records that begin in the bytes behind a header, and whether all
of the records are complete. A record that ends before its number counts as one without hits. -/
def announced : (count : Nat) → List UInt8 → List Int × Bool
  | 0, _ => ([], true)
  | _ + 1, [] => ([], false)
  | count + 1, byte :: bytes =>
    let dochitCnt := (word (((byte :: bytes).drop 8).take 4)).toInt
    if (byte :: bytes).length < 12 then ([0], false)
    else if (byte :: bytes).length < recordLength dochitCnt then ([dochitCnt], false)
    else
      let rest := announced count ((byte :: bytes).drop (recordLength dochitCnt))
      (dochitCnt :: rest.1, rest.2)

def headerSize : Nat := 12 + longLongStringSize

/-- An incomplete header announces nothing, and the message is passed over. -/
def announcedBy (content : List UInt8) : List Int × Bool :=
  if content.length < headerSize then ([], true)
  else announced (word ((content.drop 8).take 4)).toNat (content.drop headerSize)

/-- The records of all messages up to the first one that is incomplete. -/
def announcedByAll : List (Option (List UInt8)) → List Int
  | [] => []
  | none :: contents => announcedByAll contents
  | some content :: contents =>
    if (announcedBy content).2 then (announcedBy content).1 ++ announcedByAll contents
    else (announcedBy content).1

/-- No number of hits is negative, only the last record may go beyond the buffer, and the size
of all hits is an `int`. -/
def Orderly (limits : Limits) : (total : Int) → List Int → Prop
  | _, [] => True
  | total, dochitCnt :: others =>
    0 ≤ dochitCnt ∧ total ≤ limits.maxDocHitCount ∧ dochitSize * (total + dochitCnt) < 2 ^ 31 ∧
      Orderly limits (total + dochitCnt) others

/-- The hits of the document lie in the buffer and have been received. -/
structure Referring (limits : Limits) (state : State) (doc : VirtualDocument) : Prop where
  dochits : 0 ≤ doc.dochits
  commentCnt : 0 ≤ doc.commentCnt
  inside : doc.dochits + doc.commentCnt ≤ limits.maxDocHitCount
  received : ∀ index, dochitSize * doc.dochits.toNat ≤ index →
    index < dochitSize * (doc.dochits + doc.commentCnt).toNat →
    state.dochitsBuffer index ≠ none
  docattr : doc.docattr < state.docattrBuffer.length

/-- All documents that are counted refer to what has been received. -/
def Sound (limits : Limits) (state : State) : Prop :=
  state.docattrBuffer.length ≤ limits.maxDocHitsSize ∧
    ∀ doc ∈ state.data, Referring limits state doc

structure Grows (state after : State) : Prop where
  data : after.data = state.data
  received : ∀ index, state.dochitsBuffer index ≠ none → after.dochitsBuffer index ≠ none
  docattrs : state.docattrBuffer.length ≤ after.docattrBuffer.length

theorem Grows.refl (state : State) : Grows state state := ⟨rfl, fun _ => id, Nat.le_refl _⟩

theorem Grows.trans {state between after : State} (first : Grows state between)
    (second : Grows between after) : Grows state after :=
  ⟨second.data.trans first.data, fun index known => second.received index
    (first.received index known), first.docattrs.trans second.docattrs⟩

theorem Referring.grows {limits : Limits} {state after : State} {doc : VirtualDocument}
    (referring : Referring limits state doc) (grows : Grows state after) :
    Referring limits after doc where
  dochits := referring.dochits
  commentCnt := referring.commentCnt
  inside := referring.inside
  received index low high := grows.received index (referring.received index low high)
  docattr := referring.docattr.trans_le grows.docattrs

def unread (state : State) : List UInt8 := state.buf.contents.drop state.buf.cursor

theorem unread_advance (state : State) (count : Nat) :
    unread (advance state count) = (unread state).drop count :=
  (List.drop_drop ..).symm

def Near (state : State) : Prop := state.buf.cursor ≤ state.buf.contents.length + 2 ^ 31

section Receiving

variable {state : State} {size : Nat} {room : Prop} [Decidable room]

theorem read_near (near : Near state) (isInt : size < 2 ^ 31) :
    read size state = some (some ((unread state).take size),
      advance state ((unread state).take size).length) := by
  rw [Reception.read, memfileRead_natCast isInt near]
  rfl

theorem meets_receive {good : List UInt8 → State → Prop} {bearable : State → Prop}
    (near : Near state) (isInt : size < 2 ^ 31) (hasRoom : unread state ≠ [] → room)
    (isGood : size ≤ (unread state).length → good ((unread state).take size) (advance state size))
    (isBearable : ∀ count, (unread state).length < size → bearable (advance state count)) :
    Meets (Reception.receive room size) good bearable state := by
  refine Meets.bind (.inl ⟨_, _, read_near near isInt, ?_⟩)
  refine Meets.bind (meets_require ?_ ?_)
  · by_cases empty : unread state = []
    · exact .inl (by rw [empty, List.take_nil])
    · exact .inr (hasRoom empty)
  · refine Meets.bind (meets_ensure (fun complete => ?_) fun incomplete => isBearable _ ?_)
    · have enough : size ≤ (unread state).length := by
        rw [List.length_take] at complete
        omega
      rw [complete]
      exact meets_pure (isGood enough)
    · rw [List.length_take] at incomplete
      omega

theorem meets_receiveWord {good : BitVec 32 → State → Prop} {bearable : State → Prop}
    (near : Near state) (hasRoom : unread state ≠ [] → room)
    (isGood : 4 ≤ (unread state).length → good (word ((unread state).take 4)) (advance state 4))
    (isBearable : ∀ count, (unread state).length < 4 → bearable (advance state count)) :
    Meets (receiveWord room) good bearable state :=
  Meets.bind (meets_receive near (by decide) hasRoom
    (fun enough => meets_pure (isGood enough)) isBearable)

end Receiving

structure Bearable (state after : State) : Prop where
  grows : Grows state after
  docattrs : after.docattrBuffer.length = state.docattrBuffer.length

theorem Bearable.advance {state after : State} (bearable : Bearable state after) (count : Nat) :
    Bearable state (Answers.advance after count) where
  grows := ⟨bearable.grows.data, bearable.grows.received, bearable.grows.docattrs⟩
  docattrs := bearable.docattrs

theorem Bearable.refl (state : State) : Bearable state state := ⟨.refl state, rfl⟩

theorem dochitsBuffer_storeDochits (state : State) (start : Int) (bytes : List UInt8) :
    (state.storeDochits start bytes).dochitsBuffer =
      state.dochitsBuffer.write (dochitSize * start.toNat) (bytes.map some) := rfl

theorem received_storeDochits (state : State) {start : Int} {bytes : List UInt8} {index : Nat}
    (low : dochitSize * start.toNat ≤ index)
    (high : index < dochitSize * start.toNat + bytes.length) :
    (state.storeDochits start bytes).dochitsBuffer index ≠ none := by
  have bound : index - dochitSize * start.toNat < (bytes.map some).length := by
    rw [List.length_map]
    omega
  simp [dochitsBuffer_storeDochits, Buffer.write, low, List.getElem?_eq_getElem bound]

theorem Bearable.storeDochits {state after : State} (bearable : Bearable state after) (start : Int)
    (bytes : List UInt8) : Bearable state (after.storeDochits start bytes) where
  grows := by
    refine ⟨bearable.grows.data, fun index known => ?_, bearable.grows.docattrs⟩
    by_cases inside : dochitSize * start.toNat ≤ index ∧
        index < dochitSize * start.toNat + bytes.length
    · exact received_storeDochits after inside.1 inside.2
    · rw [dochitsBuffer_storeDochits, Buffer.write_outside (by rw [List.length_map]; omega)]
      exact bearable.grows.received index known
  docattrs := bearable.docattrs

section Record

variable {limits : Limits} {state : State} {index : Nat} {total : Int}

theorem meets_commentCount {good : Int → State → Prop} {bearable : State → Prop}
    {dochitCnt : Int} (notNegative : 0 ≤ total) (reached : total ≤ limits.maxDocHitCount)
    (isGood : good (min dochitCnt (limits.maxDocHitCount - total)) state) :
    Meets (commentCount limits total (total + dochitCnt) dochitCnt) good bearable state := by
  have isInt := limits.isInt
  unfold commentCount
  split
  case isTrue above =>
    rw [min_eq_right (by omega)] at isGood
    exact Meets.bind (meets_require ⟨by omega, by omega⟩ (meets_pure isGood))
  case isFalse within =>
    rw [min_eq_left (by omega)] at isGood
    exact meets_pure isGood

theorem meets_receiveDochits {good : State → Prop} {bearable : State → Prop} {count : Nat}
    (near : Near state) (isInt : dochitSize * count < 2 ^ 31) (notNegative : 0 ≤ total)
    (fits : total + count ≤ limits.maxDocHitCount)
    (isGood : dochitSize * count ≤ (unread state).length →
      good ((advance state (dochitSize * count)).storeDochits total
        ((unread state).take (dochitSize * count))))
    (isBearable : ∀ bytes count, bearable ((advance state count).storeDochits total bytes)) :
    Meets (receiveDochits limits total (dochitSize * count : Nat)) (fun _ => good) bearable
      state := by
  refine Meets.bind (.inl ⟨_, _, read_near near isInt, ?_⟩)
  have short := List.length_take_le (dochitSize * count) (unread state)
  refine Meets.bind (meets_require (.inr ⟨notNegative, ?_⟩) (Meets.bind (meets_update ?_)))
  · have most : (dochitSize : Int) * (total + count) ≤ dochitSize * limits.maxDocHitCount :=
      Int.mul_le_mul_of_nonneg_left fits (Int.natCast_nonneg _)
    rw [Int.mul_add] at most
    have cast : (((unread state).take (dochitSize * count)).length : Int) ≤
        dochitSize * count := by exact_mod_cast short
    omega
  · refine meets_ensure (fun complete => ?_) fun _ => isBearable _ _
    have same : ((unread state).take (dochitSize * count)).length = dochitSize * count := by
      exact_mod_cast complete
    rw [same]
    rw [List.length_take] at same
    exact isGood (by omega)

theorem near_of_inside (inside : state.buf.cursor ≤ state.buf.contents.length) : Near state :=
  inside.trans (Nat.le_add_right _ _)

theorem inside_advance {count : Nat} (inside : state.buf.cursor ≤ state.buf.contents.length)
    (enough : count ≤ (unread state).length) :
    (advance state count).buf.cursor ≤ (advance state count).buf.contents.length := by
  rw [unread, List.length_drop] at enough
  change state.buf.cursor + count ≤ state.buf.contents.length
  omega

structure RecordRead (limits : Limits) (state : State) (dochitCnt : Int) (doc : VirtualDocument)
    (after : State) : Prop where
  length_le : recordLength dochitCnt ≤ (unread state).length
  inside : after.buf.cursor ≤ after.buf.contents.length
  unread_eq : unread after = (unread state).drop (recordLength dochitCnt)
  total : after.dochitCnt = state.dochitCnt + dochitCnt
  docattrs : after.docattrBuffer.length = state.docattrBuffer.length + 1
  grows : Grows state after
  referring : Referring limits after doc

theorem readBehindHits_meets {between : State} {id relevance : BitVec 32}
    {dochitCnt commentCnt : Int} {count : Nat} (near : Near between)
    (behindHits : unread between = (unread state).drop (12 + dochitSize * count))
    (isTotal : between.dochitCnt = state.dochitCnt + dochitCnt) (isCount : dochitCnt = count)
    (bearable : Bearable state between) (indexRoom : index < limits.maxDocHitsSize)
    (docattrs : state.docattrBuffer.length = index) (notNegative : 0 ≤ total)
    (isNat : 0 ≤ commentCnt) (fits : total + commentCnt ≤ limits.maxDocHitCount)
    (isReceived : ∀ index, dochitSize * total.toNat ≤ index →
      index < dochitSize * (total + commentCnt).toNat → between.dochitsBuffer index ≠ none) :
    Meets (do
        let nodeId ← receiveWord (index < limits.maxDocHitsSize)
        let docattr ← gets fun state => state.docattrBuffer.length
        ensure (docattr + 1 ≤ limits.maxDocHitsSize)
        let record ← Reception.receive (docattr < limits.maxDocHitsSize) docattrSize
        update fun state => { state with docattrBuffer := state.docattrBuffer ++ [record] }
        return ⟨id, relevance, total, dochitCnt, commentCnt, nodeId, docattr⟩)
      (RecordRead limits state dochitCnt) (Bearable state) between := by
  have sameIndex : between.docattrBuffer.length = index := bearable.docattrs.trans docattrs
  refine Meets.bind (meets_receiveWord near (fun _ => indexRoom) (fun nodeRead => ?_)
    fun count _ => bearable.advance count)
  have inside : between.buf.cursor ≤ between.buf.contents.length := by
    rw [unread, List.length_drop] at nodeRead
    omega
  have nodeInside := inside_advance inside nodeRead
  refine Meets.bind (meets_gets ?_)
  refine Meets.bind (meets_ensure (fun _ => ?_) fun _ => bearable.advance 4)
  refine Meets.bind (meets_receive (near_of_inside nodeInside) (by decide) (fun _ => ?_)
    (fun docattrRead => ?_) fun count _ => (bearable.advance 4).advance count)
  · change between.docattrBuffer.length < limits.maxDocHitsSize
    omega
  · have docattrInside := inside_advance nodeInside docattrRead
    refine Meets.bind (meets_update (meets_pure ?_))
    rw [unread_advance, List.length_drop, behindHits, List.length_drop] at docattrRead
    have length : recordLength dochitCnt = 12 + dochitSize * count + 4 + docattrSize := by
      rw [recordLength, isCount, Int.toNat_natCast, docattrSize]
      omega
    rw [behindHits, List.length_drop] at nodeRead
    refine ⟨by omega, docattrInside, ?_, isTotal, ?_, ?_, ?_⟩
    · change unread (advance (advance between 4) docattrSize) = _
      rw [unread_advance, unread_advance, behindHits, List.drop_drop, List.drop_drop, length,
        Nat.add_assoc (12 + dochitSize * count) 4]
    · simp [advance, bearable.docattrs]
    · refine ⟨bearable.grows.data, bearable.grows.received, ?_⟩
      simp [advance, bearable.docattrs]
    · refine ⟨notNegative, isNat, fits, isReceived, ?_⟩
      simp [advance]

theorem readRecord_meets {dochitCnt : Int} (inside : state.buf.cursor ≤ state.buf.contents.length)
    (isTotal : state.dochitCnt = total) (notNegative : 0 ≤ total)
    (docattrs : state.docattrBuffer.length = index)
    (hasRoom : unread state ≠ [] → index < limits.maxDocHitsSize)
    (isCount : dochitCnt = (word (((unread state).drop 8).take 4)).toInt)
    (orderly : 12 ≤ (unread state).length → 0 ≤ dochitCnt ∧ total ≤ limits.maxDocHitCount ∧
      dochitSize * (total + dochitCnt) < 2 ^ 31) :
    Meets (readRecord limits index) (RecordRead limits state dochitCnt) (Bearable state) state := by
  have near : Near state := inside.trans (Nat.le_add_right _ _)
  have bearable := fun count => (Bearable.refl state).advance count
  refine Meets.bind (meets_ensure (fun _ => ?_) fun _ => Bearable.refl state)
  refine Meets.bind (meets_receiveWord near hasRoom (fun idRead => ?_) fun count _ => bearable count)
  have secondInside := inside_advance inside idRead
  have indexRoom : index < limits.maxDocHitsSize := hasRoom fun empty => by
    rw [empty] at idRead
    cases idRead
  refine Meets.bind (meets_receiveWord (near_of_inside secondInside) (fun _ => indexRoom)
    (fun relevanceRead => ?_) fun count _ => (bearable 4).advance count)
  have thirdInside := inside_advance secondInside relevanceRead
  refine Meets.bind (meets_receiveWord (near_of_inside thirdInside) (fun _ => indexRoom)
    (fun countRead => ?_) fun count _ => ((bearable 4).advance 4).advance count)
  have fourthInside := inside_advance thirdInside countRead
  rw [unread_advance, unread_advance, List.drop_drop, ← isCount]
  rw [unread_advance, unread_advance, List.drop_drop, List.length_drop] at countRead
  obtain ⟨isNat, reached, small⟩ := orderly (by omega)
  refine Meets.bind (meets_gets ?_)
  have sameTotal : (advance (advance (advance state 4) 4) 4).dochitCnt = total := isTotal
  rw [sameTotal]
  have behindCount : unread (advance (advance (advance state 4) 4) 4) = (unread state).drop 12 := by
    rw [unread_advance, unread_advance, unread_advance, List.drop_drop, List.drop_drop]
  have fourthBearable := ((bearable 4).advance 4).advance 4
  generalize advance (advance (advance state 4) 4) 4 = fourth at *
  obtain ⟨count, isCommentCnt⟩ : ∃ count : Nat,
      min dochitCnt (limits.maxDocHitCount - total) = count :=
    ⟨(min dochitCnt (limits.maxDocHitCount - total)).toNat, by omega⟩
  have most : (dochitSize * count : Int) < 2 ^ 31 := by
    refine lt_of_le_of_lt (Int.mul_le_mul_of_nonneg_left ?_ (Int.natCast_nonneg _)) small
    omega
  have skipped : (dochitSize * (dochitCnt - count) : Int) < 2 ^ 31 := by
    refine lt_of_le_of_lt (Int.mul_le_mul_of_nonneg_left ?_ (Int.natCast_nonneg _)) small
    omega
  have wanted : (dochitSize : Int) * count = (dochitSize * count : Nat) := by
    push_cast
    rfl
  have narrow : (28 : Int) * (total + dochitCnt) < 2 ^ 31 := small
  refine Meets.bind (Meets.bind (meets_require ⟨by omega, by omega⟩ (meets_pure ?_)))
  refine Meets.bind (meets_commentCount notNegative reached ?_)
  rw [isCommentCnt, wanted, toInt_of_small (by omega) (by omega)]
  refine Meets.bind (meets_receiveDochits (near_of_inside fourthInside) (by omega) notNegative
    (by omega) (fun hitsRead => ?_) fun bytes count => ?_)
  · have hitsInside := inside_advance fourthInside hitsRead
    have stored := (fourthBearable.advance (dochitSize * count)).storeDochits total
      ((unread fourth).take (dochitSize * count))
    have isReceived : ∀ index, dochitSize * total.toNat ≤ index →
        index < dochitSize * (total + count).toNat →
        ((advance fourth (dochitSize * count)).storeDochits total
          ((unread fourth).take (dochitSize * count))).dochitsBuffer index ≠ none := by
      intro index low high
      refine received_storeDochits _ low ?_
      rw [List.length_take, Nat.min_eq_left hitsRead, ← Nat.mul_add]
      rwa [Int.toNat_add notNegative (Int.natCast_nonneg _), Int.toNat_natCast] at high
    refine Meets.bind (meets_update (Meets.bind (meets_update ?_)))
    have skippedInt : (dochitSize : Int) * (dochitCnt - count) =
        (dochitSize * (dochitCnt.toNat - count) : Nat) := by
      rw [Nat.cast_mul, Nat.cast_sub (by omega), Int.toNat_of_nonneg isNat]
    have skippedNat : (dochitSize * (dochitCnt - count) : Int).toNat =
        dochitSize * (dochitCnt.toNat - count) := by rw [skippedInt, Int.toNat_natCast]
    refine @readBehindHits_meets limits state index total _ _ _ dochitCnt count dochitCnt.toNat
      ?_ ?_ ?_ (Int.toNat_of_nonneg isNat).symm ?_ indexRoom docattrs notNegative
      (Int.natCast_nonneg _) (by omega) isReceived
    · change fourth.buf.cursor + dochitSize * count + (dochitSize * (dochitCnt - count) : Int).toNat
        ≤ fourth.buf.contents.length + 2 ^ 31
      have behind : fourth.buf.cursor + dochitSize * count ≤ fourth.buf.contents.length :=
        hitsInside
      rw [skippedNat]
      omega
    · change fourth.buf.contents.drop (fourth.buf.cursor + dochitSize * count +
        (dochitSize * (dochitCnt - count) : Int).toNat) = _
      have target : (unread state).drop (12 + dochitSize * dochitCnt.toNat) =
          (unread fourth).drop (dochitSize * dochitCnt.toNat) := by
        rw [behindCount, List.drop_drop]
      rw [target, unread, List.drop_drop, skippedNat, Nat.add_assoc, ← Nat.mul_add,
        Nat.add_sub_cancel' (by omega)]
    · exact congrArg (· + dochitCnt) isTotal.symm
    · exact ⟨⟨stored.grows.data, stored.grows.received, stored.grows.docattrs⟩, stored.docattrs⟩
  · exact (fourthBearable.advance count).storeDochits total bytes

end Record

def hitsOf (bytes : List UInt8) : Int := (word ((bytes.drop 8).take 4)).toInt

theorem announced_ne_nil {count : Nat} {bytes : List UInt8} (nonempty : bytes ≠ []) :
    (announced (count + 1) bytes).1 ≠ [] := by
  cases bytes with
  | nil => exact absurd rfl nonempty
  | cons byte bytes =>
    rw [announced]
    split
    · exact List.cons_ne_nil _ _
    · split
      · exact List.cons_ne_nil _ _
      · exact List.cons_ne_nil _ _

theorem announced_head {count : Nat} {bytes : List UInt8} (long : 12 ≤ bytes.length) :
    ∃ others, (announced (count + 1) bytes).1 = hitsOf bytes :: others := by
  cases bytes with
  | nil => cases long
  | cons byte bytes =>
    rw [announced, if_neg (Nat.not_lt.mpr long)]
    split
    · exact ⟨[], rfl⟩
    · exact ⟨_, rfl⟩

theorem announced_complete {count : Nat} {bytes : List UInt8}
    (complete : recordLength (hitsOf bytes) ≤ bytes.length) :
    announced (count + 1) bytes =
      (hitsOf bytes :: (announced count (bytes.drop (recordLength (hitsOf bytes)))).1,
        (announced count (bytes.drop (recordLength (hitsOf bytes)))).2) := by
  have long : 12 ≤ bytes.length := by
    rw [recordLength] at complete
    omega
  cases bytes with
  | nil => cases long
  | cons byte bytes =>
    have enough := Nat.not_lt.mpr complete
    unfold hitsOf at enough
    rw [announced, if_neg (Nat.not_lt.mpr long), if_neg enough]
    rfl

/-- More has been received, nothing is counted, and the attributes have had room. -/
structure Survives (limits : Limits) (state after : State) : Prop where
  grows : Grows state after
  docattrs : after.docattrBuffer.length ≤ limits.maxDocHitsSize

structure RecordsRead (limits : Limits) (state : State) (counts : List Int)
    (docs : List VirtualDocument) (after : State) : Prop where
  total : after.dochitCnt = state.dochitCnt + counts.sum
  docattrs : after.docattrBuffer.length = state.docattrBuffer.length + counts.length
  length_eq : docs.length = counts.length
  grows : Grows state after
  referring : ∀ doc ∈ docs, Referring limits after doc

theorem readRecords_meets {limits : Limits} {state : State} {count index : Nat} {total : Int}
    (inside : state.buf.cursor ≤ state.buf.contents.length) (isTotal : state.dochitCnt = total)
    (notNegative : 0 ≤ total) (docattrs : state.docattrBuffer.length = index)
    (few : index + (announced count (unread state)).1.length ≤ limits.maxDocHitsSize)
    (orderly : Orderly limits total (announced count (unread state)).1) :
    Meets (readRecords limits count index)
      (fun docs after => (announced count (unread state)).2 = true ∧
        RecordsRead limits state (announced count (unread state)).1 docs after)
      (Survives limits state) state := by
  induction count generalizing state index total with
  | zero =>
    refine meets_pure ⟨rfl, ?_⟩
    exact ⟨(Int.add_zero _).symm, rfl, rfl, .refl state, fun _ member =>
      absurd member List.not_mem_nil⟩
  | succ count induction =>
    have indexFits : index ≤ limits.maxDocHitsSize := (Nat.le_add_right _ _).trans few
    have hasRoom : unread state ≠ [] → index < limits.maxDocHitsSize := by
      intro nonempty
      have counted := List.length_pos_of_ne_nil (@announced_ne_nil count _ nonempty)
      omega
    have record := readRecord_meets inside isTotal notNegative docattrs hasRoom rfl (by
      intro long
      obtain ⟨others, isHead⟩ := @announced_head count _ long
      rw [isHead] at orderly
      exact ⟨orderly.1, orderly.2.1, orderly.2.2.1⟩)
    refine Meets.bind (record.mono (fun doc between read => ?_) fun after bearable => ?_)
    · change RecordRead limits state (hitsOf (unread state)) doc between at read
      have complete := read.length_le
      rw [announced_complete complete] at few orderly ⊢
      rw [← read.unread_eq] at few orderly ⊢
      obtain ⟨isNat, _, _, others⟩ := orderly
      simp only [List.length_cons] at few
      have rest := @induction between (index + 1) (total + hitsOf (unread state)) read.inside
        (read.total.trans (by rw [isTotal])) (by omega)
        (read.docattrs.trans (by rw [docattrs])) (by omega) others
      refine Meets.bind (rest.mono (fun docs after result => ?_) fun after survives => ?_)
      · obtain ⟨isComplete, following⟩ := result
        refine meets_pure ⟨isComplete, ?_, ?_, ?_, read.grows.trans following.grows, ?_⟩
        · rw [following.total, read.total, List.sum_cons, Int.add_assoc]
        · rw [following.docattrs, read.docattrs, List.length_cons]
          omega
        · rw [List.length_cons, following.length_eq, List.length_cons]
        · exact List.forall_mem_cons.mpr
            ⟨read.referring.grows following.grows, following.referring⟩
      · exact ⟨read.grows.trans survives.grows, survives.docattrs⟩
    · exact ⟨bearable.grows, by rw [bearable.docattrs, docattrs]; exact indexFits⟩

structure Undisturbed (state after : State) : Prop where
  contents : after.buf.contents = state.buf.contents
  totalSearchCnt : after.totalSearchCnt = state.totalSearchCnt
  data : after.data = state.data
  dochitsBuffer : after.dochitsBuffer = state.dochitsBuffer
  dochitCnt : after.dochitCnt = state.dochitCnt
  docattrBuffer : after.docattrBuffer = state.docattrBuffer

theorem Undisturbed.grows {state after : State} (undisturbed : Undisturbed state after) :
    Grows state after :=
  ⟨undisturbed.data, fun index known => by rwa [undisturbed.dochitsBuffer],
    undisturbed.docattrBuffer ▸ Nat.le_refl _⟩

theorem undisturbed_advance {state after : State} (undisturbed : Undisturbed state after)
    (count : Nat) : Undisturbed state (advance after count) :=
  ⟨undisturbed.contents, undisturbed.totalSearchCnt, undisturbed.data, undisturbed.dochitsBuffer,
    undisturbed.dochitCnt, undisturbed.docattrBuffer⟩

structure HeaderRead (content : List UInt8) (state : State) (counts : BitVec 32 × BitVec 32)
    (after : State) : Prop where
  length_le : headerSize ≤ content.length
  recvCnt : counts.2 = word ((content.drop 8).take 4)
  unread_eq : unread after = content.drop headerSize
  inside : after.buf.cursor ≤ after.buf.contents.length
  undisturbed : Undisturbed state after

theorem readBehindNode_meets {state second : State} {content : List UInt8}
    (undisturbed : Undisturbed state second) (behind : unread second = content.drop 4)
    (inside : second.buf.cursor ≤ second.buf.contents.length) :
    Meets (do
        let totalCnt ← receiveWord True
        let recvCnt ← receiveWord True
        let query ← Reception.read longLongStringSize
        update fun state =>
          { state with parsedQuery := query ++ state.parsedQuery.drop query.length }
        ensure (query.length = longLongStringSize)
        return (totalCnt, recvCnt))
      (HeaderRead content state)
      (fun after => content.length < headerSize ∧ Undisturbed state after) second := by
  have shorter : ∀ {skipped size : Nat}, (content.drop skipped).length < size →
      skipped + size ≤ headerSize → content.length < headerSize := by
    intro skipped size short most
    rw [List.length_drop] at short
    omega
  refine Meets.bind (meets_receiveWord (near_of_inside inside) (fun _ => trivial)
    (fun totalRead => ?_) fun count short => ?_)
  · have thirdInside := inside_advance inside totalRead
    refine Meets.bind (meets_receiveWord (near_of_inside thirdInside) (fun _ => trivial)
      (fun countRead => ?_) fun count short => ?_)
    · have fourthInside := inside_advance thirdInside countRead
      refine Meets.bind (.inl ⟨_, _, read_near (near_of_inside fourthInside) (by decide), ?_⟩)
      have behindCounts : unread (advance (advance second 4) 4) = content.drop 12 := by
        rw [unread_advance, unread_advance, behind, List.drop_drop, List.drop_drop]
      rw [behindCounts, unread_advance, behind, List.drop_drop]
      refine Meets.bind (meets_update (Meets.bind (meets_ensure (fun complete => ?_)
        fun short => ?_)))
      · have queryRead : longLongStringSize ≤ (content.drop 12).length := by
          rw [List.length_take] at complete
          omega
        have enough : longLongStringSize ≤ (unread (advance (advance second 4) 4)).length := by
          rw [behindCounts]
          exact queryRead
        have fifthInside := inside_advance fourthInside enough
        rw [complete]
        rw [List.length_drop] at queryRead
        refine meets_pure ⟨?_, rfl, ?_, fifthInside, ?_⟩
        · have some : 0 < longLongStringSize := by decide
          rw [headerSize]
          omega
        · change unread (advance (advance (advance second 4) 4) longLongStringSize) = _
          rw [unread_advance, behindCounts, List.drop_drop, headerSize]
        · have same := undisturbed_advance (undisturbed_advance (undisturbed_advance undisturbed 4)
            4) longLongStringSize
          exact ⟨same.contents, same.totalSearchCnt, same.data, same.dochitsBuffer, same.dochitCnt,
            same.docattrBuffer⟩
      · refine ⟨@shorter 12 longLongStringSize ?_ (Nat.le_refl _), ?_⟩
        · rw [List.length_take] at short
          omega
        · have same := undisturbed_advance (undisturbed_advance (undisturbed_advance undisturbed 4)
            4) ((content.drop 12).take longLongStringSize).length
          exact ⟨same.contents, same.totalSearchCnt, same.data, same.dochitsBuffer, same.dochitCnt,
            same.docattrBuffer⟩
    · rw [unread_advance, behind, List.drop_drop] at short
      exact ⟨shorter short (by decide), undisturbed_advance (undisturbed_advance undisturbed 4) count⟩
  · rw [behind] at short
    exact ⟨shorter short (by decide), undisturbed_advance undisturbed count⟩

theorem readHeader_meets (state : State) (content : List UInt8) (nodeIdx : Nat)
    (isContent : state.buf = ⟨content, 0⟩) :
    Meets (readHeader nodeIdx) (HeaderRead content state)
      (fun after => content.length < headerSize ∧ Undisturbed state after) state := by
  have isUnread : unread state = content := by rw [unread, isContent, List.drop_zero]
  have inside : state.buf.cursor ≤ state.buf.contents.length := by
    rw [isContent]
    exact Nat.zero_le _
  refine Meets.bind (.inl ⟨_, _, read_near (near_of_inside inside) (by decide), ?_⟩)
  rw [isUnread]
  refine Meets.bind (meets_update (Meets.bind (meets_ensure (fun complete => ?_) fun short => ?_)))
  · have enough : 4 ≤ (unread state).length := by
      rw [List.length_take] at complete
      rw [isUnread]
      omega
    rw [complete]
    refine readBehindNode_meets ⟨rfl, rfl, rfl, rfl, rfl, rfl⟩ ?_ (inside_advance inside enough)
    rw [← isUnread]
    exact unread_advance state 4
  · have positive : 0 < longLongStringSize := by decide
    refine ⟨?_, ⟨rfl, rfl, rfl, rfl, rfl, rfl⟩⟩
    rw [List.length_take] at short
    change ¬min 4 content.length = 4 at short
    rw [headerSize]
    omega

theorem orderly_append {limits : Limits} {total : Int} {first second : List Int} :
    Orderly limits total (first ++ second) ↔
      Orderly limits total first ∧ Orderly limits (total + first.sum) second := by
  induction first generalizing total with
  | nil => simp [Orderly]
  | cons dochitCnt first induction =>
    simp only [List.cons_append, Orderly, induction, List.sum_cons, Int.add_assoc, and_assoc]

theorem Orderly.sum_nonneg {limits : Limits} {total : Int} {counts : List Int}
    (orderly : Orderly limits total counts) : 0 ≤ counts.sum := by
  induction counts generalizing total with
  | nil => exact Int.le_refl 0
  | cons dochitCnt counts induction =>
    obtain ⟨isNat, _, _, others⟩ := orderly
    exact Int.add_nonneg isNat (induction others)

theorem Sound.survives {limits : Limits} {state after : State} (sound : Sound limits state)
    (survives : Survives limits state after) : Sound limits after := by
  refine ⟨survives.docattrs, ?_⟩
  rw [survives.grows.data]
  exact fun doc member => (sound.2 doc member).grows survives.grows

structure Between (limits : Limits) (state : State) (total : Int) : Prop where
  sound : Sound limits state
  isTotal : state.dochitCnt = total
  notNegative : 0 ≤ total
  docattrs : state.docattrBuffer.length = state.data.length

theorem Between.undisturbed {limits : Limits} {state after : State} {total : Int}
    (between : Between limits state total) (undisturbed : Undisturbed state after) :
    Between limits after total where
  sound := between.sound.survives ⟨undisturbed.grows, by
    rw [undisturbed.docattrBuffer]
    exact between.sound.1⟩
  isTotal := undisturbed.dochitCnt.trans between.isTotal
  notNegative := between.notNegative
  docattrs := by
    rw [undisturbed.docattrBuffer, undisturbed.data]
    exact between.docattrs

theorem Between.opened {limits : Limits} {state : State} {total : Int}
    (between : Between limits state total) (buf : CursorFile UInt8) :
    Between limits { state with buf := buf } total where
  sound := between.sound.survives ⟨⟨rfl, fun _ => id, Nat.le_refl _⟩, between.sound.1⟩
  isTotal := between.isTotal
  notNegative := between.notNegative
  docattrs := between.docattrs

theorem readDocuments_meets {limits : Limits} {state : State} {total : Int}
    {counts : BitVec 32 × BitVec 32} {bytes : List UInt8} (between : Between limits state total)
    (inside : state.buf.cursor ≤ state.buf.contents.length) (isUnread : unread state = bytes)
    (few : state.data.length + (announced counts.2.toNat bytes).1.length ≤ limits.maxDocHitsSize)
    (orderly : Orderly limits total (announced counts.2.toNat bytes).1) :
    Meets (readDocuments limits (some counts))
      (fun _ after => (announced counts.2.toNat bytes).2 = true ∧
        Between limits after (total + (announced counts.2.toNat bytes).1.sum) ∧
        after.data.length = state.data.length + (announced counts.2.toNat bytes).1.length)
      (Sound limits) state := by
  subst isUnread
  refine Meets.bind (meets_gets ?_)
  have records := readRecords_meets inside between.isTotal between.notNegative between.docattrs
    few orderly
  refine Meets.bind (records.mono (fun docs after read => ?_) fun after survives =>
    between.sound.survives survives)
  obtain ⟨complete, read⟩ := read
  refine meets_update ⟨complete, ?_, ?_⟩
  · refine ⟨⟨?_, ?_⟩, ?_, Int.add_nonneg between.notNegative orderly.sum_nonneg, ?_⟩
    · change after.docattrBuffer.length ≤ limits.maxDocHitsSize
      rw [read.docattrs, between.docattrs]
      exact few
    · intro doc member
      rcases List.mem_append.mp member with old | new
      · rw [read.grows.data] at old
        obtain ⟨dochits, commentCnt, fits, received, docattr⟩ :=
          (between.sound.2 doc old).grows read.grows
        exact ⟨dochits, commentCnt, fits, received, docattr⟩
      · obtain ⟨dochits, commentCnt, fits, received, docattr⟩ := read.referring doc new
        exact ⟨dochits, commentCnt, fits, received, docattr⟩
    · exact read.total.trans (by rw [between.isTotal])
    · change after.docattrBuffer.length = (after.data ++ docs).length
      rw [read.docattrs, between.docattrs, List.length_append, read.grows.data, read.length_eq]
  · change (after.data ++ docs).length = _
    rw [List.length_append, read.grows.data, read.length_eq]

theorem agentLightsearch_meets {limits : Limits} {state : State} {total : Int} {nodeIdx : Nat}
    {contents : List (Option (List UInt8))} (between : Between limits state total)
    (few : state.data.length + (announcedByAll contents).length ≤ limits.maxDocHitsSize)
    (orderly : Orderly limits total (announcedByAll contents)) :
    Meets (Reception.agentLightsearch limits nodeIdx contents) (fun _ => Sound limits) (Sound limits)
      state := by
  induction contents generalizing state total nodeIdx with
  | nil => exact meets_pure between.sound
  | cons content contents induction =>
    cases content with
    | none => exact induction between few orderly
    | some content =>
      rw [announcedByAll] at few orderly
      refine Meets.bind (meets_update (Meets.bind (meets_attempt ?_)))
      have header := readHeader_meets { state with buf := ⟨content, 0⟩ } content nodeIdx rfl
      refine header.mono (fun counts after read => ?_) fun after missed => ?_
      · have afterHeader := (between.opened ⟨content, 0⟩).undisturbed read.undisturbed
        have sameLength : after.data.length = state.data.length :=
          congrArg List.length read.undisturbed.data
        have isAnnounced : announcedBy content =
            announced counts.2.toNat (content.drop headerSize) := by
          rw [announcedBy, if_neg (Nat.not_lt.mpr read.length_le), read.recvCnt]
        rw [isAnnounced] at few orderly
        have fewer : after.data.length +
            (announced counts.2.toNat (content.drop headerSize)).1.length ≤
              limits.maxDocHitsSize := by
          split at few
          · rw [List.length_append] at few
            omega
          · omega
        have orderlier : Orderly limits total
            (announced counts.2.toNat (content.drop headerSize)).1 := by
          split at orderly
          · exact (orderly_append.mp orderly).1
          · exact orderly
        have documents := readDocuments_meets afterHeader read.inside read.unread_eq fewer
          orderlier
        refine Meets.bind (documents.mono (fun _ received result => ?_) fun _ => id)
        obtain ⟨complete, receivedBetween, length⟩ := result
        rw [if_pos complete] at few orderly
        rw [List.length_append] at few
        refine Meets.bind (meets_gets ?_)
        have rest := @induction received _ (nodeIdx + 1) receivedBetween (by omega)
          (orderly_append.mp orderly).2
        exact Meets.bind (rest.mono (fun _ _ sound => meets_pure sound) fun _ => id)
      · have isAnnounced : announcedBy content = ([], true) := by
          rw [announcedBy, if_pos missed.1]
        rw [isAnnounced, if_pos rfl, List.nil_append] at few orderly
        have afterHeader := (between.opened ⟨content, 0⟩).undisturbed missed.2
        have sameLength : after.data.length = state.data.length :=
          congrArg List.length missed.2.data
        refine Meets.bind (meets_pure (Meets.bind (meets_gets ?_)))
        have rest := @induction after _ (nodeIdx + 1) afterHeader (by omega) orderly
        exact Meets.bind (rest.mono (fun _ _ sound => meets_pure sound) fun _ => id)

def commentSize : Nat := 8 + longLongStringSize

/-- The number of comments that begin in the bytes behind a count, and whether all of them are
complete. -/
def begun : (count : Nat) → List UInt8 → Nat × Bool
  | 0, _ => (0, true)
  | _ + 1, [] => (0, false)
  | count + 1, byte :: bytes =>
    if (byte :: bytes).length < commentSize then (1, false)
    else
      let rest := begun count ((byte :: bytes).drop commentSize)
      (rest.1 + 1, rest.2)

def begunBy (content : List UInt8) : Nat × Bool :=
  if content.length < 4 then (0, true)
  else begun (word (content.take 4)).toInt.toNat (content.drop 4)

/-- The comments of all messages up to the first one that is incomplete. -/
def begunByAll : List (Option (List UInt8)) → Nat
  | [] => 0
  | none :: contents => begunByAll contents
  | some content :: contents =>
    if (begunBy content).2 then (begunBy content).1 + begunByAll contents
    else (begunBy content).1

theorem begun_pos {count : Nat} {bytes : List UInt8} (nonempty : bytes ≠ []) :
    0 < (begun (count + 1) bytes).1 := by
  cases bytes with
  | nil => exact absurd rfl nonempty
  | cons byte bytes =>
    rw [begun]
    split
    · exact Nat.one_pos
    · exact Nat.succ_pos _

theorem begun_complete {count : Nat} {bytes : List UInt8} (complete : commentSize ≤ bytes.length) :
    begun (count + 1) bytes =
      ((begun count (bytes.drop commentSize)).1 + 1, (begun count (bytes.drop commentSize)).2) := by
  cases bytes with
  | nil => cases complete
  | cons byte bytes => rw [begun, if_neg (Nat.not_lt.mpr complete)]

structure CommentRead (state after : State) : Prop where
  length_le : commentSize ≤ (unread state).length
  inside : after.buf.cursor ≤ after.buf.contents.length
  unread_eq : unread after = (unread state).drop commentSize
  comments : after.comments.length = state.comments.length + 1

theorem readComment_meets {limits : Limits} {state : State}
    (inside : state.buf.cursor ≤ state.buf.contents.length)
    (hasRoom : unread state ≠ [] → state.comments.length < limits.commentListSize) :
    Meets (readComment limits) (fun _ => CommentRead state) (fun _ => True) state := by
  refine Meets.bind (meets_gets (Meets.bind (meets_ensure (fun _ => ?_) fun _ => trivial)))
  refine Meets.bind (meets_receiveWord (near_of_inside inside) hasRoom (fun didRead => ?_)
    fun _ _ => trivial)
  have secondInside := inside_advance inside didRead
  have room : state.comments.length < limits.commentListSize := hasRoom fun empty => by
    rw [empty] at didRead
    cases didRead
  refine Meets.bind (meets_receiveWord (near_of_inside secondInside) (fun _ => room)
    (fun nodeRead => ?_) fun _ _ => trivial)
  have thirdInside := inside_advance secondInside nodeRead
  refine Meets.bind (meets_receive (near_of_inside thirdInside) (by decide) (fun _ => room)
    (fun textRead => ?_) fun _ _ => trivial)
  have fourthInside := inside_advance thirdInside textRead
  have size_eq : commentSize = 4 + 4 + longLongStringSize := rfl
  have positive : 0 < longLongStringSize := by decide
  rw [unread_advance, unread_advance, List.drop_drop, List.length_drop] at textRead
  refine meets_update ⟨by omega, fourthInside, ?_, ?_⟩
  · change unread (advance (advance (advance state 4) 4) longLongStringSize) = _
    rw [unread_advance, unread_advance, unread_advance, List.drop_drop, List.drop_drop, size_eq,
      Nat.add_assoc]
  · change (state.comments ++ [_]).length = _
    rw [List.length_append]
    rfl

theorem readComments_meets {limits : Limits} {state : State} {count : Nat}
    (inside : state.buf.cursor ≤ state.buf.contents.length)
    (few : state.comments.length + (begun count (unread state)).1 ≤ limits.commentListSize) :
    Meets (readComments limits count)
      (fun _ after => (begun count (unread state)).2 = true ∧
        after.comments.length = state.comments.length + (begun count (unread state)).1)
      (fun _ => True) state := by
  induction count generalizing state with
  | zero => exact meets_pure ⟨rfl, rfl⟩
  | succ count induction =>
    have hasRoom : unread state ≠ [] → state.comments.length < limits.commentListSize := by
      intro nonempty
      have counted := @begun_pos count _ nonempty
      omega
    refine Meets.bind ((readComment_meets inside hasRoom).mono (fun _ between read => ?_)
      fun _ => id)
    rw [begun_complete read.length_le, ← read.unread_eq] at few ⊢
    have length := read.comments
    simp only at few
    refine (induction read.inside (by omega)).mono (fun _ after result => ?_) fun _ => id
    exact ⟨result.1, by omega⟩

theorem agentAbstractsearch_meets {limits : Limits} {state : State}
    {contents : List (Option (List UInt8))}
    (few : state.comments.length + begunByAll contents ≤ limits.commentListSize) :
    Meets (agentAbstractsearch limits contents) (fun _ _ => True) (fun _ => True) state := by
  induction contents generalizing state with
  | nil => exact meets_pure trivial
  | cons content contents induction =>
    cases content with
    | none => exact induction few
    | some content =>
      rw [begunByAll] at few
      refine Meets.bind (meets_update (Meets.bind (meets_attempt ?_)))
      have inside : (0 : Nat) ≤ content.length := Nat.zero_le _
      refine meets_receiveWord (near_of_inside inside) (fun _ => trivial)
        (fun countRead => ?_) fun count short => ?_
      · change 4 ≤ content.length at countRead
        have isBegun : begunBy content =
            begun (word (content.take 4)).toInt.toNat (content.drop 4) := by
          rw [begunBy, if_neg (Nat.not_lt.mpr countRead)]
        have fewer : state.comments.length +
            (begun (word (content.take 4)).toInt.toNat (content.drop 4)).1 ≤
              limits.commentListSize := by
          rw [← isBegun]
          split at few
          · omega
          · omega
        have comments := @readComments_meets limits
          (advance { state with buf := ⟨content, 0⟩ } 4)
          (word (content.take 4)).toInt.toNat (inside_advance inside countRead) fewer
        refine Meets.bind (comments.mono (fun _ after result => ?_) fun _ => id)
        obtain ⟨complete, length⟩ := result
        change (begun _ (content.drop 4)).2 = true at complete
        change after.comments.length = state.comments.length + (begun _ (content.drop 4)).1
          at length
        rw [isBegun, if_pos complete] at few
        refine Meets.bind (meets_gets (Meets.bind ?_))
        refine (@induction after (by omega)).mono (fun _ _ _ => ?_) fun _ => id
        exact meets_pure trivial
      · change content.length < 4 at short
        have isBegun : begunBy content = (0, true) := by rw [begunBy, if_pos short]
        rw [isBegun, if_pos rfl, Nat.zero_add] at few
        refine Meets.bind (meets_pure (Meets.bind (meets_gets (Meets.bind ?_))))
        refine (@induction (advance { state with buf := ⟨content, 0⟩ } count) few).mono
          (fun _ _ _ => ?_) fun _ => id
        exact meets_pure trivial

def zeroRecords (count : UInt8) : List UInt8 :=
  List.replicate 8 0 ++ [count, 0, 0, 0] ++
    List.replicate (longLongStringSize + 80 * count.toNat) 0

def oneOfEach : Limits := ⟨1, 1, 1, Nat.one_lt_two_pow (Nat.succ_ne_zero 30)⟩

end Wisebot.Agent.Answers
