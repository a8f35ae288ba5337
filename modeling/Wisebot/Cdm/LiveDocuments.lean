import Mathlib.Data.List.Nodup
import Wisebot.Cdm.Record

namespace Wisebot.Cdm

open Lib

/-! Each object has one live document: what is kept about the docids that were
handed out, and what puts do to it. -/

variable {Oid : Type} [DecidableEq Oid]

section HandedOut

/-- A docid that `get_new_docid` gave for an object, with the document if the put
answered that it is stored. -/
structure Handed (Oid : Type) where
  oid : Oid
  docid : Nat
  document : Option (List UInt8)

/-- The newest docid of the object, stored or not; the log has the newest first. -/
def newest (log : List (Handed Oid)) (oid : Oid) : Option (Handed Oid) :=
  log.find? fun handed => decide (handed.oid = oid)

def lastStored (log : List (Handed Oid)) (oid : Oid) : Option (Handed Oid) :=
  log.find? fun handed => decide (handed.oid = oid) && handed.document.isSome

/-- An object that was stored has one document which is there and not deleted,
and this is the one of its last such put. -/
def OneLive (stored : Nat → Option (List UInt8)) (deleted : DeleteFlags)
    (log : List (Handed Oid)) : Prop :=
  ∀ oid handed, lastStored log oid = some handed →
    stored handed.docid = handed.document ∧
      ∀ docid, ((∃ other ∈ log, other.oid = oid ∧ other.docid = docid) ∧
        (stored docid).isSome = true ∧ deleted docid = false) ↔ docid = handed.docid

structure Recorded (did : DidMap Oid) (deleted : DeleteFlags) (log : List (Handed Oid)) :
    Prop where
  decreasing : log.Pairwise fun newer older => older.docid < newer.docid
  range : ∀ handed ∈ log, 0 < handed.docid ∧ handed.docid ≤ did.lastDid
  mapped : ∀ oid, did.docidOf oid = (newest log oid).map Handed.docid
  superseded : ∀ handed ∈ log, deleted handed.docid = true ↔
    did.docidOf handed.oid ≠ some handed.docid
  unused : ∀ docid, did.lastDid < docid → deleted docid = false

/-- No put of an object failed after one that stored it. -/
def Settled (log : List (Handed Oid)) : Prop :=
  ∀ oid handed, lastStored log oid = some handed → newest log oid = some handed

variable {did : DidMap Oid} {deleted : DeleteFlags} {log : List (Handed Oid)}

theorem newest_mem {oid : Oid} {handed : Handed Oid} (found : newest log oid = some handed) :
    handed ∈ log ∧ handed.oid = oid :=
  ⟨List.mem_of_find?_eq_some found, by simpa using List.find?_some found⟩

theorem lastStored_mem {oid : Oid} {handed : Handed Oid}
    (found : lastStored log oid = some handed) :
    handed ∈ log ∧ handed.oid = oid ∧ handed.document.isSome = true := by
  have holds := List.find?_some found
  rw [Bool.and_eq_true, decide_eq_true_eq] at holds
  exact ⟨List.mem_of_find?_eq_some found, holds⟩

theorem newest_cons (handed : Handed Oid) (log : List (Handed Oid)) (oid : Oid) :
    newest (handed :: log) oid = if handed.oid = oid then some handed else newest log oid := by
  rw [newest, List.find?_cons]
  by_cases same : handed.oid = oid
  · simp [same]
  · simp [same, newest]

theorem lastStored_cons (handed : Handed Oid) (log : List (Handed Oid)) (oid : Oid) :
    lastStored (handed :: log) oid =
      if handed.oid = oid ∧ handed.document.isSome = true then some handed
      else lastStored log oid := by
  rw [lastStored, List.find?_cons]
  by_cases found : handed.oid = oid ∧ handed.document.isSome = true
  · rw [if_pos found]
    simp [found.1, found.2]
  · rw [if_neg found]
    have rejected : (decide (handed.oid = oid) && handed.document.isSome) = false := by
      rw [Bool.eq_false_iff, ne_eq, Bool.and_eq_true, decide_eq_true_eq]
      exact found
    rw [rejected]
    rfl

theorem Recorded.eq_of_docid (recorded : Recorded did deleted log) {first second : Handed Oid}
    (isFirst : first ∈ log) (isSecond : second ∈ log) (same : first.docid = second.docid) :
    first = second := by
  have apart : (log.map Handed.docid).Nodup := by
    rw [List.Nodup, List.pairwise_map]
    exact recorded.decreasing.imp (by intro newer older below; exact below.ne')
  exact List.inj_on_of_nodup_map apart isFirst isSecond same

theorem Recorded.empty : Recorded (⟨0, fun _ => none⟩ : DidMap Oid) (fun _ => false) [] where
  decreasing := List.Pairwise.nil
  range := by simp
  mapped := by simp [newest]
  superseded := by simp
  unused := by simp

theorem Recorded.register (recorded : Recorded did deleted log) (oid : Oid)
    (document : Option (List UInt8)) :
    Recorded (getNewDocid did oid).1 (setDelete deleted (getNewDocid did oid).2.2)
      (⟨oid, (getNewDocid did oid).2.1, document⟩ :: log) := by
  have flags : ∀ docid, setDelete deleted (did.docidOf oid) docid = true ↔
      deleted docid = true ∨ did.docidOf oid = some docid := by
    intro docid
    cases old : did.docidOf oid with
    | none => simp [setDelete]
    | some olddocid =>
      by_cases same : docid = olddocid
      · simp [setDelete, same]
      · simp [setDelete, Function.update_of_ne same, Ne.symm same]
  have oldBelow : ∀ docid, did.docidOf oid = some docid → docid ≤ did.lastDid := by
    intro docid old
    rw [recorded.mapped] at old
    obtain ⟨handed, found, rfl⟩ := Option.map_eq_some_iff.mp old
    exact (recorded.range handed (newest_mem found).1).2
  have freshFlag : ∀ docid, did.lastDid < docid →
      setDelete deleted (did.docidOf oid) docid = false := by
    intro docid above
    rw [Bool.eq_false_iff, ne_eq, flags]
    rintro (flagged | old)
    · rw [recorded.unused docid above] at flagged
      cases flagged
    · have below := oldBelow docid old
      omega
  refine ⟨?_, ?_, ?_, ?_, ?_⟩
  · refine List.pairwise_cons.mpr ⟨?_, recorded.decreasing⟩
    intro handed member
    exact Nat.lt_succ_of_le (recorded.range handed member).2
  · intro handed member
    rcases List.mem_cons.mp member with equal | older
    · subst equal
      exact ⟨Nat.succ_pos _, le_refl _⟩
    · obtain ⟨positive, bounded⟩ := recorded.range handed older
      exact ⟨positive, bounded.trans (Nat.le_succ _)⟩
  · intro other
    rw [newest_cons]
    by_cases same : oid = other
    · subst same
      simp [getNewDocid]
    · rw [if_neg same, ← recorded.mapped]
      exact Function.update_of_ne (Ne.symm same) _ _
  · intro handed member
    rcases List.mem_cons.mp member with equal | older
    · subst equal
      rw [show setDelete deleted (getNewDocid did oid).2.2 (getNewDocid did oid).2.1 = false from
        freshFlag _ (Nat.lt_succ_self _)]
      simp [getNewDocid]
    · have bounded := (recorded.range handed older).2
      rw [show setDelete deleted (getNewDocid did oid).2.2 handed.docid = true ↔ _ from
        flags handed.docid]
      by_cases same : handed.oid = oid
      · have moved : (getNewDocid did oid).1.docidOf handed.oid = some (did.lastDid + 1) := by
          rw [same]
          exact Function.update_self _ _ _
        rw [moved, recorded.superseded handed older, same]
        constructor
        · intro _ equal
          have stale := Option.some.inj equal
          omega
        · intro _
          exact (em (did.docidOf oid = some handed.docid)).symm
      · have kept : (getNewDocid did oid).1.docidOf handed.oid = did.docidOf handed.oid :=
          Function.update_of_ne same _ _
        rw [kept, recorded.superseded handed older]
        constructor
        · rintro (other | old)
          · exact other
          · rw [recorded.mapped] at old
            obtain ⟨entry, found, sameDocid⟩ := Option.map_eq_some_iff.mp old
            obtain ⟨isEntry, entryOid⟩ := newest_mem found
            rw [recorded.eq_of_docid isEntry older sameDocid] at entryOid
            exact absurd entryOid same
        · exact Or.inl
  · intro docid above
    exact freshFlag docid ((Nat.lt_succ_self _).trans above)

theorem Settled.empty : Settled ([] : List (Handed Oid)) := by
  intro oid handed found
  cases found

theorem Settled.register (settled : Settled log) (oid : Oid) (docid : Nat)
    {document : Option (List UInt8)}
    (careful : (lastStored log oid).isSome = true → document.isSome = true) :
    Settled (⟨oid, docid, document⟩ :: log) := by
  intro other handed found
  rw [lastStored_cons] at found
  rw [newest_cons]
  by_cases same : oid = other
  · subst same
    rw [if_pos rfl]
    by_cases isStored : document.isSome = true
    · rw [if_pos ⟨rfl, isStored⟩] at found
      exact found
    · rw [if_neg (by simpa using isStored)] at found
      exact absurd (careful (by rw [found]; rfl)) isStored
  · rw [if_neg (by simp [same])] at found
    rw [if_neg same]
    exact settled other handed found

theorem Recorded.oneLive (recorded : Recorded did deleted log) (settled : Settled log)
    {stored : Nat → Option (List UInt8)}
    (kept : ∀ handed ∈ log, ∀ document, handed.document = some document →
      stored handed.docid = some document) : OneLive stored deleted log := by
  intro oid handed found
  obtain ⟨member, isOid, isStored⟩ := lastStored_mem found
  obtain ⟨document, isDocument⟩ := Option.isSome_iff_exists.mp isStored
  have isThere := kept handed member document isDocument
  have isNewest : did.docidOf oid = some handed.docid := by
    rw [recorded.mapped, settled oid handed found]
    rfl
  refine ⟨isThere.trans isDocument.symm, ?_⟩
  intro docid
  constructor
  · rintro ⟨⟨other, isOther, otherOid, rfl⟩, -, live⟩
    have current : did.docidOf other.oid = some other.docid := by
      by_contra gone
      rw [(recorded.superseded other isOther).mpr gone] at live
      cases live
    rw [otherOid, isNewest] at current
    exact (Option.some.inj current).symm
  · rintro rfl
    refine ⟨⟨handed, member, isOid, rfl⟩, by rw [isThere]; rfl, ?_⟩
    rw [Bool.eq_false_iff, ne_eq, recorded.superseded handed member, isOid]
    exact not_not.mpr isNewest

end HandedOut

end Wisebot.Cdm
