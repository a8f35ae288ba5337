import Mathlib.Data.List.TakeWhile
import Wisebot.Replication.Replica

namespace Wisebot.Replication

open Lib Cdm

/-! A replica stays aligned with its master as long as every docid that it takes gets
its document: the two counters of the replica then never differ. -/

section Generic

variable {State Oid Fault : Type}
variable {module_ : CdmModule State Oid Fault} {oidOf : List UInt8 → Option Oid}
variable {master : Master} {careful : State → Oid → List UInt8 → Fault → Prop}
variable {inv : State → Prop}

/-- What the invariant of a module has to give: a put of the requested document keeps it
and takes the requested docid, and what is held is what the master has. -/
structure Tracks (module_ : CdmModule State Oid Fault) (master : Master)
    (careful : State → Oid → List UInt8 → Fault → Prop) (inv : State → Prop) : Prop where
  put : ∀ cdm oid fault outcome, inv cdm →
    careful cdm oid (master.documents (requested module_ cdm)) fault →
    module_.put cdm oid (master.documents (requested module_ cdm)) fault = some outcome →
    inv outcome.state ∧
      ∀ docid, outcome.newdocid = some docid → docid = requested module_ cdm
  held : ∀ cdm docid record, inv cdm → module_.holds cdm docid = some record →
    module_.recordOf (master.documents docid) = some record

def CarefulRound (module_ : CdmModule State Oid Fault) (oidOf : List UInt8 → Option Oid)
    (master : Master) (careful : State → Oid → List UInt8 → Fault → Prop)
    (replica : Replica State) (round : Round Fault) : Prop :=
  round.exchange = .answered → ∀ oid,
    oidOf (master.documents (requested module_ replica.cdm)) = some oid →
    careful replica.cdm oid (master.documents (requested module_ replica.cdm)) round.fault

theorem Master.strlen (master : Master) (did : Nat) :
    (master.documents did).takeWhile (· ≠ 0) = master.documents did := by
  rw [List.takeWhile_eq_self_iff]
  intro byte member
  have nonzero : byte ≠ 0 := by
    rintro rfl
    exact master.strings did member
  exact decide_eq_true nonzero

theorem Tracks.registerDocument (tracks : Tracks module_ master careful inv) {cdm : State}
    (holds : inv cdm) {round : Round Fault} {registered : Registered State}
    (guarded : ∀ oid, oidOf (master.documents (requested module_ cdm)) = some oid →
      careful cdm oid (master.documents (requested module_ cdm)) round.fault)
    (run : registerDocument module_ oidOf cdm (master.documents (requested module_ cdm)) round =
      some registered) :
    inv registered.2.1 ∧
      ∀ docid, registered.2.2 = some docid → docid = requested module_ cdm := by
  have unchanged : ∀ success, some (success, cdm, none) = some registered →
      inv registered.2.1 ∧
        ∀ docid, registered.2.2 = some docid → docid = requested module_ cdm := by
    intro success same
    obtain rfl := Option.some.inj same
    exact ⟨holds, fun docid isDocid => by cases isDocid⟩
  rw [Replication.registerDocument] at run
  split at run
  · exact unchanged _ run
  · split at run
    · cases run
    · split at run
      · exact unchanged _ run
      · cases isOid : oidOf (master.documents (requested module_ cdm)) with
        | none =>
          rw [isOid] at run
          exact unchanged _ run
        | some oid =>
          simp only [isOid] at run
          split at run
          · exact unchanged _ run
          · obtain ⟨outcome, puts, rfl⟩ := Option.map_eq_some_iff.mp run
            rw [master.strlen] at puts
            exact tracks.put cdm oid round.fault outcome holds (guarded oid isOid) puts

theorem Tracks.replicationMain (tracks : Tracks module_ master careful inv)
    {replica next : Replica State} {round : Round Fault}
    (holds : inv replica.cdm ∧ ∀ origin ∈ replica.origins, origin.1 = origin.2)
    (guarded : CarefulRound module_ oidOf master careful replica round)
    (stepped : replicationMain module_ oidOf master replica round = some next) :
    inv next.cdm ∧ ∀ origin ∈ next.origins, origin.1 = origin.2 := by
  cases isExchange : round.exchange with
  | makeRequestFails =>
    rw [Replication.replicationMain, isExchange] at stepped
    obtain rfl := Option.some.inj stepped
    exact holds
  | failed =>
    rw [Replication.replicationMain, isExchange] at stepped
    obtain rfl := Option.some.inj stepped
    exact holds
  | refused =>
    rw [Replication.replicationMain, isExchange] at stepped
    dsimp only at stepped
    split at stepped
    · obtain rfl := Option.some.inj stepped
      exact holds
    · obtain rfl := Option.some.inj stepped
      exact holds
  | noContent =>
    rw [Replication.replicationMain, isExchange] at stepped
    obtain rfl := Option.some.inj stepped
    exact holds
  | incomplete =>
    rw [Replication.replicationMain, isExchange] at stepped
    obtain rfl := Option.some.inj stepped
    exact holds
  | answered =>
    rw [Replication.replicationMain, isExchange] at stepped
    obtain ⟨registered, run, rfl⟩ := Option.map_eq_some_iff.mp stepped
    obtain ⟨kept, taken⟩ := tracks.registerDocument holds.1 (guarded isExchange) run
    refine ⟨kept, ?_⟩
    dsimp only
    cases isDocid : registered.2.2 with
    | none => exact holds.2
    | some docid =>
      intro origin member
      rcases List.mem_cons.mp member with rfl | older
      · exact taken docid isDocid
      · exact holds.2 origin older

theorem Tracks.mirrors (tracks : Tracks module_ master careful inv) {cdm : State}
    (start : inv cdm) {replica : Replica State}
    (reached : Reach (Replication.replicationMain module_ oidOf master)
      (CarefulRound module_ oidOf master careful) (Replica.start cdm) replica) :
    Mirrors module_ master replica := by
  have holds : inv replica.cdm ∧ ∀ origin ∈ replica.origins, origin.1 = origin.2 :=
    reached.invariant
      (fun replica => inv replica.cdm ∧ ∀ origin ∈ replica.origins, origin.1 = origin.2)
      ⟨start, fun origin member => by cases member⟩
      fun _ _ _ holds guarded stepped => tracks.replicationMain holds guarded stepped
  refine ⟨fun docid record => tracks.held replica.cdm docid record holds.1, ?_⟩
  intro did first second isFirst isSecond _ _
  exact (holds.2 (first, did) isFirst).trans (holds.2 (second, did) isSecond).symm

end Generic

variable {Oid : Type} [DecidableEq Oid] {master : Master}

omit [DecidableEq Oid] in
theorem requested_eq {State Fault : Type} {module_ : CdmModule State Oid Fault} {cdm : State}
    (small : module_.lastDocid cdm + 1 < 2 ^ 32) :
    requested module_ cdm = module_.lastDocid cdm + 1 :=
  Nat.mod_eq_of_lt small

/-! ### `mod_cdm2` -/

section Module2

variable {cdmFileSize : Nat} {partsOf : List UInt8 → Option Parts}

/-- Every docid up to the last one has the document of the master. -/
structure Aligned2 (partsOf : List UInt8 → Option Parts) (master : Master) (cdm : Cdm2 Oid) :
    Prop where
  counters : cdm.did.lastDid = cdm.lastDocid
  placed : ∀ docid, 0 < docid → docid ≤ cdm.lastDocid → ∃ parts,
    partsOf (master.documents docid) = some parts ∧ Placed cdm docid (writeRecord parts)

omit [DecidableEq Oid] in
theorem Fault2.parts_of_call {cdm : Cdm2 Oid} {oid : Oid} {text : List UInt8} {fault : Fault2}
    {parts : Parts} (isParts : (fault.call partsOf cdm oid text).parts = some parts) :
    partsOf text = some parts := by
  have isParts : (if fault.parseFails then none else partsOf text) = some parts := isParts
  split at isParts
  · cases isParts
  · exact isParts

theorem Aligned2.requested {cdm : Cdm2 Oid} (aligned : Aligned2 partsOf master cdm) {oid : Oid}
    {text : List UInt8} {fault : Fault2}
    (docidFails : (fault.call partsOf cdm oid text).docidFails = false) :
    requested (cdmModule2 cdmFileSize partsOf : CdmModule (Cdm2 Oid) Oid Fault2) cdm =
      cdm.lastDocid + 1 := by
  obtain ⟨-, small⟩ := Bool.or_eq_false_iff.mp docidFails
  have small : ¬ 2 ^ 32 ≤ cdm.did.lastDid + 1 := of_decide_eq_false small
  rw [aligned.counters] at small
  exact requested_eq (Nat.lt_of_not_le small)

theorem Aligned2.putLocked {cdm : Cdm2 Oid} (aligned : Aligned2 partsOf master cdm)
    {call : Put2 Oid} {parts : Parts}
    (isParts : call.docidFails = false →
      partsOf (master.documents (cdm.lastDocid + 1)) = some parts)
    (careful : call.docidFails = true ∨ call.indexFails = false ∧ call.dataFails = none)
    {dbNo offset : Nat}
    (behind : cdm.dbNo < dbNo ∨ (dbNo = cdm.dbNo ∧ offset = cdm.offset)) :
    Aligned2 partsOf master
        (putLocked { cdm with locked := true } call parts dbNo offset).state ∧
      ∀ docid, (putLocked { cdm with locked := true } call parts dbNo offset).newdocid =
        some docid → call.docidFails = false ∧ docid = cdm.lastDocid + 1 := by
  cases docidFails : call.docidFails with
  | true =>
    rw [Cdm.putLocked, docidFails, if_pos rfl]
    exact ⟨⟨aligned.counters, aligned.placed⟩, fun docid isDocid => by cases isDocid⟩
  | false =>
    rw [docidFails] at careful
    obtain ⟨indexFails, dataFails⟩ := careful.resolve_left Bool.false_ne_true
    simp only [Cdm.putLocked, docidFails, indexFails, dataFails, Bool.false_eq_true, if_false]
    refine ⟨⟨rfl, ?_⟩, fun docid isDocid => ⟨trivial, ?_⟩⟩
    · intro docid positive upTo
      have upTo : docid ≤ cdm.did.lastDid + 1 := upTo
      rcases Nat.eq_or_lt_of_le upTo with newest | older
      · rw [newest, aligned.counters]
        have isElement : Function.update cdm.index (cdm.did.lastDid + 1)
            ⟨cdm.did.lastDid + 1, dbNo, offset, recordLength parts⟩ (cdm.lastDocid + 1) =
              ⟨cdm.lastDocid + 1, dbNo, offset, recordLength parts⟩ := by
          rw [aligned.counters, Function.update_self]
        exact ⟨parts, isParts docidFails, placed_new cdm isElement rfl ⟨rfl, rfl⟩⟩
      · obtain ⟨olderParts, isOlder, placed⟩ :=
          aligned.placed docid positive (by rw [← aligned.counters]; omega)
        exact ⟨olderParts, isOlder, placed.written behind (writeRecord parts)
          (Function.update_of_ne older.ne _ _) rfl (.inr ⟨rfl, Nat.le_add_right _ _⟩)⟩
    · have isDocid : some (cdm.did.lastDid + 1) = some docid := isDocid
      rw [← Option.some.inj isDocid, aligned.counters]

theorem tracks2 :
    Tracks (cdmModule2 cdmFileSize partsOf : CdmModule (Cdm2 Oid) Oid Fault2) master
      (fun cdm oid text fault => CarefulFault2 cdmFileSize cdm (fault.call partsOf cdm oid text))
      (Aligned2 partsOf master) where
  put := by
    intro cdm oid fault outcome aligned careful puts
    have puts : putXmldoc2 cdmFileSize cdm (fault.call partsOf cdm oid _) = some outcome := puts
    rw [putXmldoc2] at puts
    have unchanged : ∀ (locked : Bool) (answer : PutAnswer),
        some ⟨{ cdm with locked := locked }, answer, none⟩ = some outcome →
        Aligned2 partsOf master outcome.state ∧ ∀ docid, outcome.newdocid = some docid →
          docid = requested (cdmModule2 cdmFileSize partsOf) cdm := by
      intro locked answer same
      obtain rfl := Option.some.inj same
      exact ⟨⟨aligned.counters, aligned.placed⟩, fun docid isDocid => by cases isDocid⟩
    split at puts
    next => exact unchanged cdm.locked _ puts
    next parts isParts =>
      split at puts
      next => exact unchanged cdm.locked _ puts
      next gotLock =>
        dsimp only at puts
        split at puts
        next => cases puts
        next inArray =>
          split at puts
          next => exact unchanged false _ puts
          next opened =>
            obtain rfl := Option.some.inj puts
            have given : (fault.call partsOf cdm oid
                (master.documents (requested (cdmModule2 cdmFileSize partsOf) cdm))).docidFails =
                true ∨ fault.indexFails = false ∧ fault.dataFails = none := by
              rcases careful with (noParts | noLock | notOpened) | taken
              · rw [isParts] at noParts
                cases noParts
              · exact absurd noLock gotLock
              · exact absurd notOpened opened
              · exact taken
            have isText : (fault.call partsOf cdm oid
                (master.documents (requested (cdmModule2 cdmFileSize partsOf) cdm))).docidFails =
                false → partsOf (master.documents (cdm.lastDocid + 1)) = some parts := by
              intro docidFails
              rw [← aligned.requested docidFails]
              exact Fault2.parts_of_call isParts
            obtain ⟨kept, taken⟩ :=
              aligned.putLocked isText given (nextPlace_spec cdmFileSize cdm)
            refine ⟨kept, fun docid isDocid => ?_⟩
            obtain ⟨docidFails, rfl⟩ := taken docid isDocid
            exact (aligned.requested docidFails).symm
  held := by
    intro cdm docid record aligned isHeld
    have isHeld : (if docid ≤ cdm.lastDocid then stored2 cdm docid else none) = some record :=
      isHeld
    split at isHeld
    next upTo =>
      have positive : 0 < docid := by
        rw [stored2] at isHeld
        split at isHeld
        next found => exact Nat.pos_of_ne_zero found.2
        next => cases isHeld
      obtain ⟨parts, isParts, placed⟩ := aligned.placed docid positive upTo
      rw [placed.stored positive] at isHeld
      show (partsOf (master.documents docid)).map writeRecord = some record
      rw [isParts, ← isHeld]
      rfl
    next => cases isHeld

end Module2

/-! ### `mod_cdm3` -/

section Module3

variable {wellFormed : List UInt8 → Bool}

/-- What is in the file of a docid is the document of the master. -/
structure Aligned3 (master : Master) (cdm : Cdm3 Oid) : Prop where
  counters : cdm.did.lastDid = cdm.lastDocid
  files : ∀ docid content, cdm.ifs docid = some content → content = master.documents docid

theorem Aligned3.requested {cdm : Cdm3 Oid} (aligned : Aligned3 master cdm) {oid : Oid}
    {text : List UInt8} {fault : Fault3}
    (docidFails : (fault.call wellFormed cdm oid text).docidFails = false) :
    requested (cdmModule3 wellFormed : CdmModule (Cdm3 Oid) Oid Fault3) cdm =
      cdm.lastDocid + 1 := by
  obtain ⟨-, small⟩ := Bool.or_eq_false_iff.mp docidFails
  have small : ¬ 2 ^ 32 ≤ cdm.did.lastDid + 1 := of_decide_eq_false small
  rw [aligned.counters] at small
  exact requested_eq (Nat.lt_of_not_le small)

omit [DecidableEq Oid] in
theorem Aligned3.update {cdm : Cdm3 Oid} (aligned : Aligned3 master cdm)
    {content : Option (List UInt8)}
    (right : ∀ kept, content = some kept → kept = master.documents (cdm.lastDocid + 1))
    (docid : Nat) (found : List UInt8)
    (isFound : Function.update cdm.ifs (cdm.did.lastDid + 1) content docid = some found) :
    found = master.documents docid := by
  by_cases newest : docid = cdm.did.lastDid + 1
  · rw [newest, Function.update_self] at isFound
    rw [newest, aligned.counters]
    exact right found isFound
  · rw [Function.update_of_ne newest] at isFound
    exact aligned.files docid found isFound

theorem Aligned3.putXmldoc3 {cdm : Cdm3 Oid} (aligned : Aligned3 master cdm) {call : Put3 Oid}
    (careful : CarefulFault3 call)
    (isText : call.docidFails = false → call.xmldoc = master.documents (cdm.lastDocid + 1))
    {outcome : PutOutcome (Cdm3 Oid)} (puts : putXmldoc3 cdm call = some outcome) :
    Aligned3 master outcome.state ∧ ∀ docid, outcome.newdocid = some docid →
      call.docidFails = false ∧ docid = cdm.lastDocid + 1 := by
  rw [Cdm.putXmldoc3] at puts
  split at puts
  next =>
    obtain rfl := Option.some.inj puts
    exact ⟨aligned, fun docid isDocid => by cases isDocid⟩
  next parsed =>
    split at puts
    next =>
      obtain rfl := Option.some.inj puts
      exact ⟨aligned, fun docid isDocid => by cases isDocid⟩
    next gotLock =>
      split at puts
      next => cases puts
      next =>
        split at puts
        next =>
          obtain rfl := Option.some.inj puts
          exact ⟨⟨aligned.counters, aligned.files⟩, fun docid isDocid => by cases isDocid⟩
        next given =>
          have left := ((careful.resolve_left parsed).resolve_left gotLock).resolve_left given
          have given : call.docidFails = false := Bool.eq_false_iff.mpr given
          have isDocid : ∀ docid, some (cdm.did.lastDid + 1) = some docid →
              call.docidFails = false ∧ docid = cdm.lastDocid + 1 := by
            intro docid same
            rw [← Option.some.inj same, aligned.counters]
            exact ⟨given, rfl⟩
          cases appendFails : call.appendFails with
          | some kept =>
            simp only [appendFails] at puts
            obtain rfl := Option.some.inj puts
            refine ⟨⟨rfl, aligned.update fun text isKept => ?_⟩, isDocid⟩
            rw [← isText given]
            exact left text (by rw [appendFails, isKept])
          | none =>
            simp only [appendFails] at puts
            obtain rfl := Option.some.inj puts
            refine ⟨⟨rfl, aligned.update fun text isKept => ?_⟩, isDocid⟩
            rw [← isText given]
            exact (Option.some.inj isKept).symm

omit [DecidableEq Oid] in
theorem Aligned3.releaseLock {fails : Bool} {outcome : PutOutcome (Cdm3 Oid)}
    (aligned : Aligned3 master outcome.state) :
    Aligned3 master (releaseLock fails outcome).state ∧
      (Replication.releaseLock fails outcome).newdocid = outcome.newdocid := by
  rw [Replication.releaseLock]
  split
  · exact ⟨⟨aligned.counters, aligned.files⟩, rfl⟩
  · exact ⟨aligned, rfl⟩

theorem tracks3 :
    Tracks (cdmModule3 wellFormed : CdmModule (Cdm3 Oid) Oid Fault3) master
      (fun cdm oid text fault => CarefulFault3 (fault.call wellFormed cdm oid text))
      (Aligned3 master) where
  put := by
    intro cdm oid fault final aligned careful puts
    obtain ⟨outcome, stored, rfl⟩ := Option.map_eq_some_iff.mp puts
    have isText : (fault.call wellFormed cdm oid
        (master.documents (requested (cdmModule3 wellFormed) cdm))).docidFails = false →
        master.documents (requested (cdmModule3 wellFormed) cdm) =
          master.documents (cdm.lastDocid + 1) :=
      fun docidFails => congrArg master.documents (aligned.requested docidFails)
    obtain ⟨kept, taken⟩ := aligned.putXmldoc3 careful isText stored
    obtain ⟨released, sameDocid⟩ := @Aligned3.releaseLock _ _ fault.releaseFails _ kept
    refine ⟨released, fun docid isDocid => ?_⟩
    rw [sameDocid] at isDocid
    obtain ⟨docidFails, rfl⟩ := taken docid isDocid
    exact (aligned.requested docidFails).symm
  held := by
    intro cdm docid record aligned isHeld
    have isHeld : (if docid ≤ cdm.lastDocid then cdm.ifs docid else none) = some record := isHeld
    split at isHeld
    next => exact congrArg some (aligned.files docid record isHeld).symm
    next => cases isHeld

end Module3

omit [DecidableEq Oid] in
theorem emptyCdm2_aligned (partsOf : List UInt8 → Option Parts) (master : Master) :
    Aligned2 partsOf master (emptyCdm2 : Cdm2 Oid) where
  counters := rfl
  placed := fun _ positive upTo => absurd (Nat.lt_of_lt_of_le positive upTo) (lt_irrefl 0)

omit [DecidableEq Oid] in
theorem emptyCdm3_aligned (master : Master) : Aligned3 master (emptyCdm3 : Cdm3 Oid) where
  counters := rfl
  files := fun _ _ found => by cases found

/-- In a run whose puts are careful a replica has the documents of its master under the
ids of the master. -/
theorem careful_run_mirrors (cdmFileSize : Nat) (partsOf : List UInt8 → Option Parts)
    (wellFormed : List UInt8 → Bool) (oidOf : List UInt8 → Option Oid) (master : Master)
    {replica2 : Replica (Cdm2 Oid)} {replica3 : Replica (Cdm3 Oid)}
    (reached2 : Reach (replicationMain (cdmModule2 cdmFileSize partsOf) oidOf master)
      (CarefulRound (cdmModule2 cdmFileSize partsOf) oidOf master fun cdm oid text fault =>
        CarefulFault2 cdmFileSize cdm (fault.call partsOf cdm oid text))
      (Replica.start emptyCdm2) replica2)
    (reached3 : Reach (replicationMain (cdmModule3 wellFormed) oidOf master)
      (CarefulRound (cdmModule3 wellFormed) oidOf master fun cdm oid text fault =>
        CarefulFault3 (fault.call wellFormed cdm oid text))
      (Replica.start emptyCdm3) replica3) :
    Mirrors (cdmModule2 cdmFileSize partsOf : CdmModule (Cdm2 Oid) Oid Fault2) master replica2 ∧
      Mirrors (cdmModule3 wellFormed : CdmModule (Cdm3 Oid) Oid Fault3) master replica3 :=
  ⟨tracks2.mirrors (emptyCdm2_aligned partsOf master) reached2,
    tracks3.mirrors (emptyCdm3_aligned master) reached3⟩

def twoDigits : Master where
  documents did := if did = 1 then [49, 49] else [50, 50]
  strings := by
    intro did
    split <;> decide

/-- A round in which nothing fails, but perhaps the put. -/
def answeredRound {Fault : Type} (fault : Fault) : Round Fault where
  exchange := .answered
  readFails := false
  parseFails := false
  getDocidFails := false
  deleteFails := false
  fault := fault

def plainFault2 : Fault2 := ⟨false, false, false, false, false, none⟩

def plainFault3 : Fault3 := ⟨false, false, false, none, false⟩

def textModule2 : CdmModule (Cdm2 Nat) Nat Fault2 :=
  cdmModule2 1000 fun text => some ⟨text, [], []⟩

def textModule3 : CdmModule (Cdm3 Nat) Nat Fault3 := cdmModule3 fun _ => true

theorem careful_run_mirrors_two_documents :
    ∃ (replica2 : Replica (Cdm2 Nat)) (replica3 : Replica (Cdm3 Nat)),
      (replica2.origins = [(2, 2), (1, 1)] ∧ replica3.origins = [(2, 2), (1, 1)]) ∧
        Mirrors textModule2 twoDigits replica2 ∧ Mirrors textModule3 twoDigits replica3 := by
  have twice2 : ∃ replica : Replica (Cdm2 Nat),
      Reach (replicationMain textModule2 (fun _ => some 0) twoDigits)
        (CarefulRound textModule2 (fun _ => some 0) twoDigits fun cdm oid text fault =>
          CarefulFault2 1000 cdm (fault.call (fun text => some ⟨text, [], []⟩) cdm oid text))
        (Replica.start emptyCdm2) replica ∧ replica.origins = [(2, 2), (1, 1)] :=
    ⟨_, (Reach.start.step (answeredRound plainFault2)
        (fun _ _ _ => .inr (.inr ⟨rfl, rfl⟩)) rfl).step (answeredRound plainFault2)
        (fun _ _ _ => .inr (.inr ⟨rfl, rfl⟩)) rfl, rfl⟩
  have twice3 : ∃ replica : Replica (Cdm3 Nat),
      Reach (replicationMain textModule3 (fun _ => some 0) twoDigits)
        (CarefulRound textModule3 (fun _ => some 0) twoDigits fun cdm oid text fault =>
          CarefulFault3 (fault.call (fun _ => true) cdm oid text))
        (Replica.start emptyCdm3) replica ∧ replica.origins = [(2, 2), (1, 1)] :=
    ⟨_, (Reach.start.step (answeredRound plainFault3)
        (fun _ _ _ => .inr (.inr (.inr fun _ isLeft => by cases isLeft))) rfl).step
        (answeredRound plainFault3)
        (fun _ _ _ => .inr (.inr (.inr fun _ isLeft => by cases isLeft))) rfl, rfl⟩
  obtain ⟨replica2, reached2, origins2⟩ := twice2
  obtain ⟨replica3, reached3, origins3⟩ := twice3
  exact ⟨replica2, replica3, ⟨origins2, origins3⟩,
    careful_run_mirrors 1000 (fun text => some ⟨text, [], []⟩) (fun _ => true) (fun _ => some 0)
      twoDigits reached2 reached3⟩

/-- A put of `mod_cdm2` that fails behind `get_new_docid` leaves its docid taken, and the
first document of the master is stored under the second docid; an append of `mod_cdm3`
that fails leaves half of a document. -/
theorem failed_put_shifts_documents :
    (∃ replica, Reach (replicationMain textModule2 (fun _ => some 0) twoDigits) (fun _ _ => True)
      (Replica.start emptyCdm2) replica ∧ ¬ Mirrors textModule2 twoDigits replica) ∧
    ∃ replica, Reach (replicationMain textModule3 (fun _ => some 0) twoDigits) (fun _ _ => True)
      (Replica.start emptyCdm3) replica ∧ ¬ Mirrors textModule3 twoDigits replica := by
  constructor
  · refine ⟨_, (Reach.start.step (answeredRound { plainFault2 with indexFails := true })
      trivial rfl).step (answeredRound plainFault2) trivial rfl, ?_⟩
    intro mirrors
    have held := mirrors.same 2 (writeRecord ⟨[49, 49], [], []⟩) (by decide +kernel)
    exact absurd held (by decide +kernel)
  · refine ⟨_, Reach.start.step
      (answeredRound { plainFault3 with appendFails := some (some [49]) }) trivial rfl, ?_⟩
    intro mirrors
    have held := mirrors.same 1 [49] (by decide +kernel)
    exact absurd held (by decide +kernel)

end Wisebot.Replication
