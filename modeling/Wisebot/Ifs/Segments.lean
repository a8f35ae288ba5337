import Wisebot.Ifs.Table
import Wisebot.Sfs.Copying

namespace Wisebot.Ifs

open Wisebot.Sfs (OpenType sfsClose sfsFormat sfsOpen)

/-! The segments that `__sfs_activate` and `__sfs_deactivate` of `modules/mod_ifs/mod_ifs.c`
open and close. -/

/-- The sizes in `shared`, and the segments as files with the handles of a process: a segment
of type `unload` has none (`local.sfs[p]` is `NULL`). -/
structure Segments where
  segmentSize : Int
  blockSize : Int
  sfs : Nat → Sfs.Segment

namespace Segments

def put (this : Segments) (p : Nat) (sfs : Sfs.Segment) : Segments :=
  { this with sfs := Function.update this.sfs p sfs }

@[simp] theorem put_segmentSize (this : Segments) (p : Nat) (sfs : Sfs.Segment) :
    (this.put p sfs).segmentSize = this.segmentSize := rfl

@[simp] theorem put_blockSize (this : Segments) (p : Nat) (sfs : Sfs.Segment) :
    (this.put p sfs).blockSize = this.blockSize := rfl

@[simp] theorem put_self (this : Segments) (p : Nat) (sfs : Sfs.Segment) :
    (this.put p sfs).sfs p = sfs :=
  Function.update_self ..

theorem put_of_ne (this : Segments) {p q : Nat} (different : q ≠ p) (sfs : Sfs.Segment) :
    (this.put p sfs).sfs q = this.sfs q :=
  Function.update_of_ne different ..

@[simp] theorem put_put (this : Segments) (p : Nat) (first second : Sfs.Segment) :
    (this.put p first).put p second = this.put p second := by
  simp [put]

theorem put_comm (this : Segments) {p q : Nat} (different : p ≠ q) (first second : Sfs.Segment) :
    (this.put p first).put q second = (this.put q second).put p first := by
  simp only [put, Function.update_comm different]

theorem put_eq_self (this : Segments) (p : Nat) : this.put p (this.sfs p) = this := by
  rw [put, Function.update_eq_self]

def sfsDeactivate (this : Segments) (p : Nat) : Segments := this.put p (sfsClose (this.sfs p))

def closeOtherType (this : Segments) (p : Nat) (type : OpenType) : Segments :=
  if (this.sfs p).type ≠ .unload ∧ (this.sfs p).type ≠ type then this.sfsDeactivate p else this

/-- `created` is the outcome of `__file_open` and `sfs_create`, should they be called. -/
def sfsActivate (this : Segments) (p : Nat) (type : OpenType) (doFormat : Bool)
    (formatOption : UInt32) (created : Bool) : Option (Ret × Segments) :=
  let this := this.closeOtherType p type
  if (this.sfs p).type ≠ .unload ∧ doFormat = false then some (.success, this)
  else if (this.sfs p).type = .unload ∧ created = false then some (.fail, this)
  else
    match (if doFormat then sfsFormat (this.sfs p) formatOption this.segmentSize this.blockSize
      else some (.success, this.sfs p)) with
    | none => none
    | some (.success, sfs) =>
      match sfsOpen sfs type with
      | (.success, opened) => some (.success, this.put p opened)
      | (_, closed) => some (.fail, this.put p closed)
    | some (_, sfs) => some (.fail, this.put p sfs)

theorem closeOtherType_eq (this : Segments) (p : Nat) (type : OpenType) :
    ∃ before, this.closeOtherType p type = this.put p before ∧
      before.io = (this.sfs p).io := by
  rw [closeOtherType]
  split
  · exact ⟨_, rfl, rfl⟩
  · exact ⟨this.sfs p, by simp [put], rfl⟩

theorem sfsActivate_eq_put {this next : Segments} {p : Nat} {type : OpenType} {doFormat : Bool}
    {option : UInt32} {created : Bool} {ret : Ret}
    (run : this.sfsActivate p type doFormat option created = some (ret, next)) :
    ∃ sfs, next = this.put p sfs := by
  obtain ⟨before, isClosed, _⟩ := this.closeOtherType_eq p type
  simp only [sfsActivate, isClosed, put_put] at run
  split at run
  · cases run
    exact ⟨before, rfl⟩
  · split at run
    · cases run
      exact ⟨before, rfl⟩
    · split at run
      · cases run
      · split at run
        · cases run
          exact ⟨_, rfl⟩
        · cases run
          exact ⟨_, rfl⟩
      · cases run
        exact ⟨_, rfl⟩

theorem sfsActivate_formatted {this next : Segments} {p : Nat} {type : OpenType}
    {option : UInt32} {created : Bool}
    (run : this.sfsActivate p type true option created = some (.success, next)) :
    ∃ before formatted,
      before.io = (this.sfs p).io ∧
      sfsFormat before option this.segmentSize this.blockSize = some (.success, formatted) ∧
      next = this.put p { formatted with type := type } := by
  obtain ⟨before, isClosed, io⟩ := this.closeOtherType_eq p type
  rw [sfsActivate, isClosed] at run
  simp only [Bool.true_eq_false, and_false, if_false, if_true, put_self, put_segmentSize,
    put_blockSize] at run
  split at run
  · cases run
  · split at run
    · cases run
    · next formatted accepted =>
      rw [Sfs.sfsOpen_formatted (Sfs.sfsFormat_superBlock accepted) type] at run
      cases run
      exact ⟨before, formatted, io, accepted, put_put ..⟩
    · cases run

theorem sfsActivate_format (this : Segments) {p : Nat} (type : OpenType) {option : UInt32}
    (reliable : (this.sfs p).io.Reliable) {other formattedOther : Sfs.Segment}
    (accepted : sfsFormat other option this.segmentSize this.blockSize =
      some (.success, formattedOther)) :
    ∃ before formatted, before.io = (this.sfs p).io ∧
      sfsFormat before option this.segmentSize this.blockSize = some (.success, formatted) ∧
      this.sfsActivate p type true option true =
        some (.success, this.put p { formatted with type := type }) := by
  obtain ⟨before, isClosed, io⟩ := this.closeOtherType_eq p type
  obtain ⟨formatted, run⟩ := Sfs.sfsFormat_again (io ▸ reliable) accepted
  refine ⟨before, formatted, io, run, ?_⟩
  rw [sfsActivate, isClosed]
  simp only [Bool.true_eq_false, and_false, if_false, if_true, put_self, put_segmentSize,
    put_blockSize, run, Sfs.sfsOpen_formatted (Sfs.sfsFormat_superBlock run) type, put_put]

theorem sfsActivate_again (this : Segments) {p : Nat} {type : OpenType} {option : UInt32}
    (isOpen : (this.sfs p).type = type) (loaded : type ≠ .unload)
    (reliable : (this.sfs p).io.Reliable) {other formattedOther : Sfs.Segment}
    (accepted : sfsFormat other option this.segmentSize this.blockSize =
      some (.success, formattedOther)) (created : Bool) :
    ∃ formatted, sfsFormat (this.sfs p) option this.segmentSize this.blockSize =
        some (.success, formatted) ∧
      this.sfsActivate p type true option created =
        some (.success, this.put p { formatted with type := type }) := by
  obtain ⟨formatted, run⟩ := Sfs.sfsFormat_again reliable accepted
  have stays : this.closeOtherType p type = this := if_neg fun other => other.2 isOpen
  refine ⟨formatted, run, ?_⟩
  rw [sfsActivate, stays]
  simp only [Bool.true_eq_false, and_false, if_false, if_true, isOpen, loaded, false_and, run,
    Sfs.sfsOpen_formatted (Sfs.sfsFormat_superBlock run) type]

section

variable (this : Segments) {p q : Nat} (different : p ≠ q) (sfs : Sfs.Segment)

include different

theorem closeOtherType_put (type : OpenType) :
    (this.put q sfs).closeOtherType p type = (this.closeOtherType p type).put q sfs := by
  simp only [closeOtherType, put_of_ne _ different]
  split
  · rw [sfsDeactivate, sfsDeactivate, put_of_ne _ different, put_comm _ different]
  · rfl

theorem sfsActivate_put (type : OpenType) (doFormat : Bool) (option : UInt32) (created : Bool) :
    (this.put q sfs).sfsActivate p type doFormat option created =
      (this.sfsActivate p type doFormat option created).map fun result =>
        (result.1, result.2.put q sfs) := by
  have swap : ∀ (closed : Segments) other, (closed.put q sfs).put p other =
      (closed.put p other).put q sfs := fun closed other => put_comm closed different.symm ..
  simp only [sfsActivate, closeOtherType_put _ different, put_of_ne _ different, put_segmentSize,
    put_blockSize, swap]
  generalize this.closeOtherType p type = closed
  split
  · rfl
  · split
    · rfl
    · generalize (if doFormat = true then sfsFormat (closed.sfs p) option closed.segmentSize
        closed.blockSize else some (.success, closed.sfs p)) = made
      rcases made with _ | ⟨_ | _ | _ | _, segment⟩
      case none => rfl
      case some.success =>
        dsimp only
        generalize sfsOpen segment type = opened
        rcases opened with ⟨_ | _ | _ | _, handle⟩
        all_goals rfl
      all_goals rfl

end

end Segments

end Wisebot.Ifs
