import Wisebot.Cdm.PutRuns

namespace Wisebot.Replication

open Lib Cdm

/-! The replication process: it asks the master for the document behind its last one
and registers what it receives. What fails in a round is part of the round. -/

variable {State Oid Fault : Type}

def documentSize : Nat := 10000 * 1024

def minDelayTimeSec : Nat := 10

def maxDelayTimeSec : Nat := 60

/-- What the process uses of a CDM module and of the document ids. `docidOf` is
`sb_run_get_docid`; `recordOf` is what the module keeps of a text. -/
structure CdmModule (State Oid Fault : Type) where
  lastDocid : State → Nat
  docidOf : State → Oid → Option Nat
  put : State → Oid → List UInt8 → Fault → Option (PutOutcome State)
  holds : State → Nat → Option (List UInt8)
  recordOf : List UInt8 → Option (List UInt8)

structure Master where
  documents : Nat → List UInt8
  strings : ∀ did, 0 ∉ documents did

/-- How far a request gets. An answered one brings the whole document. -/
inductive Exchange where
  | makeRequestFails
  | failed
  | refused
  | noContent
  | incomplete
  | answered

/-- A request and the registration of its answer with what fails in it;
`deleteFails` is what the attribute module makes of the docid 0. -/
structure Round (Fault : Type) where
  exchange : Exchange
  readFails : Bool
  parseFails : Bool
  getDocidFails : Bool
  deleteFails : Bool
  fault : Fault

/-- `origins` has the documents that were put, by the docid that each one got. -/
structure Replica (State : Type) where
  cdm : State
  delayTimeSec : Nat
  origins : List (Nat × Nat)

/-- The answer, the store and the docid that `cdm_put_xmldoc` gave. -/
abbrev Registered (State : Type) := Bool × State × Option Nat

/-- The object is looked up the wrong way round: one that is not there is deleted. A
body that does not fit is written behind the end of `canned_doc`. -/
def registerDocument (module_ : CdmModule State Oid Fault) (oidOf : List UInt8 → Option Oid)
    (cdm : State) (body : List UInt8) (round : Round Fault) : Option (Registered State) :=
  if body.length = 0 then some (false, cdm, none)
  else if documentSize ≤ body.length then none
  else if round.readFails ∨ round.parseFails then some (false, cdm, none)
  else
    match oidOf body with
    | none => some (false, cdm, none)
    | some oid =>
      if (round.getDocidFails ∨ module_.docidOf cdm oid = none) ∧ round.deleteFails then
        some (true, cdm, none)
      else
        (module_.put cdm oid (body.takeWhile (· ≠ 0)) round.fault).map fun outcome =>
          (true, outcome.state, outcome.newdocid)

def requested (module_ : CdmModule State Oid Fault) (cdm : State) : Nat :=
  (module_.lastDocid cdm + 1) % 2 ^ 32

/-- One turn of the endless loop. -/
def replicationMain (module_ : CdmModule State Oid Fault) (oidOf : List UInt8 → Option Oid)
    (master : Master) (replica : Replica State) (round : Round Fault) : Option (Replica State) :=
  match round.exchange with
  | .makeRequestFails => some replica
  | .failed => some { replica with delayTimeSec := replica.delayTimeSec + 1 }
  | .refused =>
    if replica.delayTimeSec < maxDelayTimeSec then
      some { replica with delayTimeSec := replica.delayTimeSec + 1 }
    else some replica
  | .noContent => some { replica with delayTimeSec := minDelayTimeSec + 1 }
  | .incomplete => some { replica with delayTimeSec := minDelayTimeSec + 1 }
  | .answered =>
    let did := requested module_ replica.cdm
    (registerDocument module_ oidOf replica.cdm (master.documents did) round).map
      fun registered =>
        { cdm := registered.2.1
          delayTimeSec := minDelayTimeSec
          origins :=
            match registered.2.2 with
            | none => replica.origins
            | some docid => (docid, did) :: replica.origins }

/-! The two modules. `get_new_docid` has no id behind the last 32 bit number. -/

variable [DecidableEq Oid]

structure Fault2 where
  parseFails : Bool
  lockFails : Bool
  openFails : Bool
  docidFails : Bool
  indexFails : Bool
  dataFails : Option Nat

def Fault2.call (partsOf : List UInt8 → Option Parts) (cdm : Cdm2 Oid) (oid : Oid)
    (text : List UInt8) (fault : Fault2) : Put2 Oid where
  oid := oid
  parts := if fault.parseFails then none else partsOf text
  lockFails := fault.lockFails
  openFails := fault.openFails
  docidFails := fault.docidFails || decide (2 ^ 32 ≤ cdm.did.lastDid + 1)
  indexFails := fault.indexFails
  dataFails := fault.dataFails

/-- `partsOf` is the XML parser with the configured fields. -/
def cdmModule2 (cdmFileSize : Nat) (partsOf : List UInt8 → Option Parts) :
    CdmModule (Cdm2 Oid) Oid Fault2 where
  lastDocid := Cdm2.lastDocid
  docidOf cdm oid := cdm.did.docidOf oid
  put cdm oid text fault := putXmldoc2 cdmFileSize cdm (fault.call partsOf cdm oid text)
  holds cdm docid := if docid ≤ cdm.lastDocid then stored2 cdm docid else none
  recordOf text := (partsOf text).map writeRecord

structure Fault3 where
  parseFails : Bool
  lockFails : Bool
  docidFails : Bool
  appendFails : Option (Option (List UInt8))
  releaseFails : Bool

def Fault3.call (wellFormed : List UInt8 → Bool) (cdm : Cdm3 Oid) (oid : Oid)
    (text : List UInt8) (fault : Fault3) : Put3 Oid where
  oid := oid
  xmldoc := text
  wellFormed := !fault.parseFails && wellFormed text
  lockFails := fault.lockFails
  docidFails := fault.docidFails || decide (2 ^ 32 ≤ cdm.did.lastDid + 1)
  appendFails := fault.appendFails

/-- A semaphore that is not released stays held. -/
def releaseLock (fails : Bool) (outcome : PutOutcome (Cdm3 Oid)) : PutOutcome (Cdm3 Oid) :=
  if outcome.newdocid.isSome ∧ fails then
    { outcome with state := { outcome.state with locked := true }, answer := .fail }
  else outcome

def cdmModule3 (wellFormed : List UInt8 → Bool) : CdmModule (Cdm3 Oid) Oid Fault3 where
  lastDocid := Cdm3.lastDocid
  docidOf cdm oid := cdm.did.docidOf oid
  put cdm oid text fault :=
    (putXmldoc3 cdm (fault.call wellFormed cdm oid text)).map (releaseLock fault.releaseFails)
  holds cdm docid := if docid ≤ cdm.lastDocid then cdm.ifs docid else none
  recordOf text := some text

/-- Every document that the replica holds is the one of the master, and no document
of the master is held twice. -/
structure Mirrors (module_ : CdmModule State Oid Fault) (master : Master)
    (replica : Replica State) : Prop where
  same : ∀ docid record, module_.holds replica.cdm docid = some record →
    module_.recordOf (master.documents docid) = some record
  once : ∀ did first second, (first, did) ∈ replica.origins → (second, did) ∈ replica.origins →
    (module_.holds replica.cdm first).isSome = true →
    (module_.holds replica.cdm second).isSome = true → first = second

def Replica.start (cdm : State) : Replica State := ⟨cdm, minDelayTimeSec, []⟩

def CarefulFault2 (cdmFileSize : Nat) (cdm : Cdm2 Oid) (call : Put2 Oid) : Prop :=
  call.EndsEarly cdmFileSize cdm ∨ call.docidFails = true ∨
    (call.indexFails = false ∧ call.dataFails = none)

/-- An append that fails leaves nothing of the document. -/
def CarefulFault3 (call : Put3 Oid) : Prop :=
  call.wellFormed = false ∨ call.lockFails = true ∨ call.docidFails = true ∨
    ∀ left, call.appendFails = some (some left) → left = call.xmldoc

end Wisebot.Replication
