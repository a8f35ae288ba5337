import Mathlib.Algebra.Order.Ring.Nat
import Wisebot.Common.MemfileCalls
import Wisebot.Lib.Buffer
import Wisebot.Lib.Reading
import Wisebot.Lib.Word

namespace Wisebot.Agent.Reception

open Wisebot.Lib Wisebot.Lib.Reading

/-! How an agent reads the answers of its search nodes: the second halves of
`agent_lightsearch` and `agent_abstractsearch` (`mod_httpd_handler/mod_agent_sbhandler.c`).
A program goes wrong where it stores outside an array, reads outside of a message or
lets an `int` overflow. Entries behind those that are counted are left out, also one
that has been received in part. -/

def dochitSize : Nat := 28

def docattrSize : Nat := 64

def longLongStringSize : Nat := 8192

/-- What an `int` holds of a number. -/
def toInt (value : Int) : Int := value.bmod (2 ^ 32)

def encode (value : BitVec 32) : List UInt8 := encodeWord 4 value.toNat

def word (bytes : List UInt8) : BitVec 32 := BitVec.ofNat 32 (decodeWord bytes)

/-- The sizes of the arrays of an agent; they are kept as an `int`. -/
structure Limits where
  maxDocHitsSize : Nat
  maxDocHitCount : Nat
  commentListSize : Nat
  isInt : maxDocHitCount < 2 ^ 31

/-- `dochits` and `docattr` are indices in `g_dochits_buffer` and `g_docattr_buffer`. -/
structure VirtualDocument where
  id : BitVec 32
  relevance : BitVec 32
  dochits : Int
  dochitCnt : Int
  commentCnt : Int
  nodeId : BitVec 32
  docattr : Nat

/-- The first half of `s` is received, the other one is zero. -/
structure Comment where
  did : BitVec 32
  nodeId : BitVec 32
  s : List UInt8

/-- `buf` is the message that is read, `data` the documents that `vdl->cnt` counts and
`dochitsBuffer` the bytes of `g_dochits_buffer` that have been received. -/
structure State where
  buf : CursorFile UInt8
  searchNodes : List (BitVec 32)
  totalSearchCnt : BitVec 32
  parsedQuery : List UInt8
  data : List VirtualDocument
  dochitsBuffer : Buffer (Option UInt8)
  dochitCnt : Int
  docattrBuffer : List (List UInt8)
  comments : List Comment

/-! ### `memfile_read` -/

/-- The size is an `int` that is added to the offset, an `unsigned long`. -/
def memfileRead (file : CursorFile UInt8) (size : Int) : Option (CursorFile UInt8 × List UInt8) :=
  let size : Int :=
    if file.cursor + size < 0 ∨ file.contents.length < file.cursor + size then
      toInt (file.contents.length - file.cursor)
    else size
  if 0 < size ∧ file.contents.length < file.cursor + size then none
  else some (⟨file.contents, file.cursor + size.toNat⟩, file.ahead size.toNat)

def read (size : Int) : Reading State (List UInt8) := fun state =>
  (memfileRead state.buf size).map fun result => (some result.2, { state with buf := result.1 })

/-- `if (memfile_read(buf, place, size) != size) goto RECV_FAIL`, for a place in an array
that has room for it or not. -/
def receive (room : Prop) [Decidable room] (size : Nat) : Reading State (List UInt8) := do
  let bytes ← read size
  require (bytes = [] ∨ room)
  ensure (bytes.length = size)
  return bytes

def receiveWord (room : Prop) [Decidable room] : Reading State (BitVec 32) := do
  let bytes ← receive room 4
  return word bytes

/-! ### `agent_lightsearch` -/

/-- An addition or a subtraction of type `int`. -/
def checked (value : Int) : Reading State Int := do
  require (-2 ^ 31 ≤ value ∧ value < 2 ^ 31)
  return value

/-- `comment_cnt`: the hits that there is room for, where there are more. -/
def commentCount (limits : Limits) (dochitCnt total announced : Int) : Reading State Int :=
  if total > limits.maxDocHitCount then checked (limits.maxDocHitCount - dochitCnt)
  else pure announced

def State.storeDochits (state : State) (start : Int) (bytes : List UInt8) : State :=
  { state with
    dochitsBuffer := state.dochitsBuffer.write (dochitSize * start.toNat) (bytes.map some) }

/-- The bytes are stored at the address of hit `start`. -/
def receiveDochits (limits : Limits) (start size : Int) : Reading State Unit := do
  let bytes ← read size
  require (bytes = [] ∨
    0 ≤ start ∧ dochitSize * start + bytes.length ≤ dochitSize * limits.maxDocHitCount)
  update fun state => state.storeDochits start bytes
  ensure (bytes.length = size)

/-- `memfile_setOffset` behind the hits that are not read. -/
def State.skip (state : State) (unread : Int) : State :=
  { state with
    buf := ⟨state.buf.contents, state.buf.cursor + (dochitSize * unread).toNat⟩ }

def readRecord (limits : Limits) (index : Nat) : Reading State VirtualDocument := do
  ensure (index ≤ limits.maxDocHitsSize)
  let id ← receiveWord (index < limits.maxDocHitsSize)
  let relevance ← receiveWord (index < limits.maxDocHitsSize)
  let announced ← receiveWord (index < limits.maxDocHitsSize)
  let start ← gets State.dochitCnt
  let total ← checked (start + announced.toInt)
  let commentCnt ← commentCount limits start total announced.toInt
  receiveDochits limits start (toInt (dochitSize * commentCnt))
  update fun state => state.skip (announced.toInt - commentCnt)
  update fun state => { state with dochitCnt := total }
  let nodeId ← receiveWord (index < limits.maxDocHitsSize)
  let docattr ← gets fun state => state.docattrBuffer.length
  ensure (docattr + 1 ≤ limits.maxDocHitsSize)
  let record ← receive (docattr < limits.maxDocHitsSize) docattrSize
  update fun state => { state with docattrBuffer := state.docattrBuffer ++ [record] }
  return ⟨id, relevance, start, announced.toInt, commentCnt, nodeId, docattr⟩

def readRecords (limits : Limits) : (count index : Nat) → Reading State (List VirtualDocument)
  | 0, _ => pure []
  | count + 1, index => do
      let doc ← readRecord limits index
      let docs ← readRecords limits count (index + 1)
      return doc :: docs

/-- The bytes of a word that has been received in part are stored, too. -/
def overwrite (bytes : List UInt8) (old : BitVec 32) : BitVec 32 :=
  word (bytes ++ (encode old).drop bytes.length)

/-- The number of documents that have been found and the number of those that follow. -/
def readHeader (nodeIdx : Nat) : Reading State (BitVec 32 × BitVec 32) := do
  let nodeId ← read 4
  update fun state =>
    { state with searchNodes := state.searchNodes.modify nodeIdx (overwrite nodeId) }
  ensure (nodeId.length = 4)
  let totalCnt ← receiveWord True
  let recvCnt ← receiveWord True
  let query ← read longLongStringSize
  update fun state =>
    { state with parsedQuery := query ++ state.parsedQuery.drop query.length }
  ensure (query.length = longLongStringSize)
  return (totalCnt, recvCnt)

def readDocuments (limits : Limits) : Option (BitVec 32 × BitVec 32) → Reading State Unit
  | none => pure ()
  | some (totalCnt, recvCnt) => do
      let cnt ← gets fun state => state.data.length
      let docs ← readRecords limits recvCnt.toNat cnt
      update fun state => { state with
        data := state.data ++ docs
        totalSearchCnt := state.totalSearchCnt + totalCnt }

/-- The loop over the nodes; `none` stands for a node without a complete response. An
empty response has no complete header. The memfiles are given back as they are left. -/
def agentLightsearch (limits : Limits) :
    (nodeIdx : Nat) → List (Option (List UInt8)) → Reading State (List (CursorFile UInt8))
  | _, [] => pure []
  | nodeIdx, none :: contents => agentLightsearch limits (nodeIdx + 1) contents
  | nodeIdx, some content :: contents => do
      update fun state => { state with buf := ⟨content, 0⟩ }
      let header ← attempt (readHeader nodeIdx)
      readDocuments limits header
      let buf ← gets State.buf
      let bufs ← agentLightsearch limits (nodeIdx + 1) contents
      return buf :: bufs

/-! ### `agent_abstractsearch` -/

def readComment (limits : Limits) : Reading State Unit := do
  let cmtIdx ← gets fun state => state.comments.length
  ensure (cmtIdx ≤ limits.commentListSize)
  let did ← receiveWord (cmtIdx < limits.commentListSize)
  let nodeId ← receiveWord (cmtIdx < limits.commentListSize)
  let s ← receive (cmtIdx < limits.commentListSize) longLongStringSize
  update fun state => { state with
    comments := state.comments ++ [⟨did, nodeId, s ++ List.replicate longLongStringSize 0⟩] }

def readComments (limits : Limits) : (count : Nat) → Reading State Unit
  | 0 => pure ()
  | count + 1 => do
      readComment limits
      readComments limits count

/-- The comments behind a count that is complete, an `int`. -/
def readAbstract (limits : Limits) : Option (BitVec 32) → Reading State Unit
  | none => pure ()
  | some recvCnt => readComments limits recvCnt.toInt.toNat

/-- `none` also stands for a node that has not been asked. -/
def agentAbstractsearch (limits : Limits) :
    List (Option (List UInt8)) → Reading State (List (CursorFile UInt8))
  | [] => pure []
  | none :: contents => agentAbstractsearch limits contents
  | some content :: contents => do
      update fun state => { state with buf := ⟨content, 0⟩ }
      let recvCnt ← attempt (receiveWord True)
      readAbstract limits recvCnt
      let buf ← gets State.buf
      let bufs ← agentAbstractsearch limits contents
      return buf :: bufs

/-- After `init_agent`, `init_request` and `init_response`. -/
def State.start (searchNodes : List (BitVec 32)) : State where
  buf := ⟨[], 0⟩
  searchNodes := searchNodes
  totalSearchCnt := 0
  parsedQuery := List.replicate longLongStringSize 0
  data := []
  dochitsBuffer := fun _ => none
  dochitCnt := 0
  docattrBuffer := []
  comments := []

theorem toInt_of_small {value : Int} (low : -2 ^ 31 ≤ value) (high : value < 2 ^ 31) :
    toInt value = value := by
  have divided := Int.bmod_def value 4294967296
  have same : value.bmod 4294967296 = value := by omega
  exact same

theorem length_ahead (file : CursorFile UInt8) (size : Nat) :
    (file.ahead size).length = min size (file.contents.length - file.cursor) := by
  rw [CursorFile.ahead, List.length_take, List.length_drop]

/-- A size that is not negative gives what is ahead of the cursor, also where the cursor
is a little behind the end. -/
theorem memfileRead_natCast {file : CursorFile UInt8} {size : Nat} (isInt : size < 2 ^ 31)
    (near : file.cursor ≤ file.contents.length + 2 ^ 31) :
    memfileRead file size =
      some (⟨file.contents, file.cursor + (file.ahead size).length⟩, file.ahead size) := by
  have length := length_ahead file size
  unfold memfileRead
  by_cases short : (file.cursor : Int) + size < 0 ∨
      (file.contents.length : Int) < file.cursor + size
  · have rest : toInt ((file.contents.length : Int) - file.cursor) =
        (file.contents.length : Int) - file.cursor := toInt_of_small (by omega) (by omega)
    have count : ((file.contents.length : Int) - file.cursor).toNat =
        file.contents.length - file.cursor := by omega
    have same : file.ahead (file.contents.length - file.cursor) = file.ahead size := by
      rw [CursorFile.ahead, CursorFile.ahead, List.take_of_length_le (by rw [List.length_drop]),
        List.take_of_length_le (by rw [List.length_drop]; omega)]
    simp only [if_pos short, rest, count, same, length]
    rw [if_neg (by omega), Nat.min_eq_right (by omega)]
  · simp only [if_neg short, Int.toNat_natCast, length]
    rw [if_neg (by omega), Nat.min_eq_left (by omega)]

end Wisebot.Agent.Reception
