import Wisebot.Lib.Runs
import Wisebot.Vdoc.Operations

namespace Wisebot.Vdoc

open Lib Runs

/-! When the virtual documents partition the list that they are made of. -/

/-- A key tuple of the list has one virtual document, which has exactly the
documents with the tuple and the sum of their relevances. -/
structure Partitions {β : Type} [DecidableEq β] (key : DocHit → β) (list : List DocHit)
    (virtuals : List VirtualDocument) : Prop where
  nonempty : ∀ vd ∈ virtuals, vd.dochits ≠ []
  one : ∀ tuple, (∃ dochit ∈ list, key dochit = tuple) →
    ∃ before vd after, virtuals = before ++ vd :: after ∧
      vd.dochits = list.filter (fun dochit => decide (key dochit = tuple)) ∧
      vd.relevance = (vd.dochits.map DocHit.hitratio).sum ∧
      ∀ other ∈ before ++ after, ∀ dochit ∈ other.dochits, key dochit ≠ tuple

/-- The relevances of the documents of one key fit in 32 bits. -/
def RelevanceFits {β : Type} [DecidableEq β] (key : DocHit → β) (list : List DocHit) : Prop :=
  ∀ tuple, ((list.filter fun dochit => decide (key dochit = tuple)).map
    DocHit.hitratio).sum < 4294967296

section Making

variable {docattr : Docattr} {virtualRules : List KeyRule}

theorem extendVirtual_spec {key : List Int} {list behind : List DocHit}
    {vd extended : VirtualDocument} (small : vd.relevance < 4294967296)
    (extends_to : extendVirtual docattr virtualRules key vd list = some (extended, behind)) :
    ∃ run, list = run ++ behind ∧ extended.dochits = vd.dochits ++ run ∧
      (∀ dochit ∈ run, virtualIdList docattr virtualRules dochit = some key) ∧
      extended.relevance = (vd.relevance + (run.map DocHit.hitratio).sum) % 4294967296 ∧
      ∀ dochit ∈ behind.head?, ∃ other, virtualIdList docattr virtualRules dochit = some other ∧
        other ≠ key := by
  induction list generalizing vd with
  | nil =>
    rw [extendVirtual, Option.some.injEq, Prod.mk.injEq] at extends_to
    obtain ⟨rfl, rfl⟩ := extends_to
    exact ⟨[], rfl, (List.append_nil _).symm, by simp, (Nat.mod_eq_of_lt small).symm, by simp⟩
  | cons dochit rest ih =>
    rw [extendVirtual] at extends_to
    cases isKey : virtualIdList docattr virtualRules dochit with
    | none =>
      rw [isKey] at extends_to
      cases extends_to
    | some next =>
      rw [isKey] at extends_to
      by_cases same : key = next
      · simp only [if_pos same] at extends_to
        obtain ⟨run, split, dochits, keys, relevance, stops⟩ :=
          ih (Nat.mod_lt _ (by decide)) extends_to
        refine ⟨dochit :: run, ?_, ?_, ?_, ?_, stops⟩
        · rw [split, List.cons_append]
        · rw [dochits, List.append_assoc]
          rfl
        · intro other member
          rcases List.mem_cons.mp member with isHead | later
          · rw [isHead, isKey, same]
          · exact keys other later
        · rw [relevance, Nat.mod_add_mod, List.map_cons, List.sum_cons, Nat.add_assoc]
      · simp only [if_neg same, Option.some.injEq, Prod.mk.injEq] at extends_to
        obtain ⟨rfl, rfl⟩ := extends_to
        refine ⟨[], rfl, (List.append_nil _).symm, by simp, (Nat.mod_eq_of_lt small).symm, ?_⟩
        intro other isHead
        cases isHead
        exact ⟨next, isKey, Ne.symm same⟩

/-- What virtual documents made of a list are: its runs of neighbours with the same key. -/
structure Made (docattr : Docattr) (virtualRules : List KeyRule) (list : List DocHit)
    (virtuals : List VirtualDocument) : Prop where
  flat : (virtuals.map VirtualDocument.dochits).flatten = list
  grouped : Grouped (virtualIdList docattr virtualRules) (virtuals.map VirtualDocument.dochits)
  known : ∀ dochit ∈ list, (virtualIdList docattr virtualRules dochit).isSome = true
  relevance : ∀ vd ∈ virtuals,
    vd.relevance = (vd.dochits.map DocHit.hitratio).sum % 4294967296

theorem made_nil : Made docattr virtualRules [] [] :=
  ⟨rfl, ⟨by simp, by simp, List.IsChain.nil⟩, by simp, by simp⟩

theorem made_cons {key : List Int} {dochit : DocHit} {run behind : List DocHit}
    {vd : VirtualDocument} {later : List VirtualDocument}
    (isKey : virtualIdList docattr virtualRules dochit = some key)
    (dochits : vd.dochits = [dochit] ++ run)
    (keys : ∀ other ∈ run, virtualIdList docattr virtualRules other = some key)
    (relevance : vd.relevance =
      (dochit.hitratio % 4294967296 + (run.map DocHit.hitratio).sum) % 4294967296)
    (stops : ∀ other ∈ behind.head?, ∃ next,
      virtualIdList docattr virtualRules other = some next ∧ next ≠ key)
    (made : Made docattr virtualRules behind later) :
    Made docattr virtualRules (dochit :: (run ++ behind)) (vd :: later) := by
  have ofGroup : ∀ other ∈ vd.dochits, virtualIdList docattr virtualRules other = some key := by
    intro other member
    rw [dochits, List.singleton_append] at member
    rcases List.mem_cons.mp member with isHead | inRun
    · rw [isHead, isKey]
    · exact keys other inRun
  refine ⟨?_, ⟨?_, ?_, ?_⟩, ?_, ?_⟩
  · rw [List.map_cons, List.flatten_cons, made.flat, dochits]
    rfl
  · intro group member
    rcases List.mem_cons.mp member with isGroup | isLater
    · rw [isGroup, dochits]
      exact List.cons_ne_nil _ _
    · exact made.grouped.nonempty group isLater
  · intro group member first isFirst second isSecond
    rcases List.mem_cons.mp member with isGroup | isLater
    · subst isGroup
      rw [ofGroup first isFirst, ofGroup second isSecond]
    · exact made.grouped.same group isLater first isFirst second isSecond
  · refine List.isChain_cons.mpr ⟨?_, made.grouped.apart⟩
    intro group isHead first isFirst second isSecond
    have isGroup : group ∈ later.map VirtualDocument.dochits := List.mem_of_mem_head? isHead
    obtain ⟨head, tail, rfl⟩ := List.exists_cons_of_ne_nil (made.grouped.nonempty group isGroup)
    have headOfBehind : head ∈ behind.head? := by
      rw [← made.flat]
      cases groups : later.map VirtualDocument.dochits with
      | nil =>
        rw [groups] at isGroup
        cases isGroup
      | cons other others =>
        rw [groups] at isHead
        cases isHead
        rfl
    obtain ⟨next, isNext, differs⟩ := stops head headOfBehind
    rw [ofGroup first isFirst, made.grouped.same _ isGroup second isSecond head (by simp), isNext]
    exact fun equal => differs (Option.some.inj equal).symm
  · intro other member
    rcases List.mem_cons.mp member with isHead | behindHead
    · rw [isHead, isKey]
      rfl
    · rcases List.mem_append.mp behindHead with inRun | inBehind
      · rw [keys other inRun]
        rfl
      · exact made.known other inBehind
  · intro other member
    rcases List.mem_cons.mp member with isVd | isLater
    · subst isVd
      rw [relevance, dochits, Nat.mod_add_mod]
      rfl
    · exact made.relevance other isLater

theorem makeVirtualFrom_spec {fuel : Nat} {list : List DocHit}
    {virtuals : List VirtualDocument}
    (made : makeVirtualFrom docattr virtualRules fuel list = some virtuals) :
    Made docattr virtualRules list virtuals := by
  induction fuel generalizing list virtuals with
  | zero =>
    cases list with
    | nil =>
      rw [makeVirtualFrom, Option.some.injEq] at made
      subst made
      exact made_nil
    | cons dochit rest => cases made
  | succ fuel ih =>
    cases list with
    | nil =>
      rw [makeVirtualFrom, Option.some.injEq] at made
      subst made
      exact made_nil
    | cons dochit rest =>
      rw [makeVirtualFrom] at made
      cases isKey : virtualIdList docattr virtualRules dochit with
      | none =>
        rw [isKey] at made
        cases made
      | some key =>
        simp only [isKey] at made
        cases extends_to : extendVirtual docattr virtualRules key
            ⟨key.headD 0, [dochit], dochit.hitratio % 4294967296⟩ rest with
        | none =>
          rw [extends_to] at made
          cases made
        | some extended =>
          obtain ⟨vd, behind⟩ := extended
          simp only [extends_to] at made
          cases madeBehind : makeVirtualFrom docattr virtualRules fuel behind with
          | none =>
            rw [madeBehind] at made
            cases made
          | some later =>
            simp only [madeBehind, Option.some.injEq] at made
            subst made
            obtain ⟨run, rfl, dochits, keys, relevance, stops⟩ :=
              extendVirtual_spec (Nat.mod_lt _ (by decide)) extends_to
            exact made_cons isKey dochits keys relevance stops (ih madeBehind)

/-- The documents of the key of a group are the group, if no other group has the key. -/
theorem filter_group {β : Type} [DecidableEq β] {key : DocHit → β} {before after : List (List DocHit)}
    {group : List DocHit} {tuple : β} (ofGroup : ∀ dochit ∈ group, key dochit = tuple)
    (others : ∀ other ∈ before ++ after, ∀ dochit ∈ other, key dochit ≠ tuple) :
    (before ++ group :: after).flatten.filter (fun dochit => decide (key dochit = tuple)) =
      group := by
  have none_of : ∀ groups : List (List DocHit),
      (∀ other ∈ groups, ∀ dochit ∈ other, key dochit ≠ tuple) →
      groups.flatten.filter (fun dochit => decide (key dochit = tuple)) = [] := by
    intro groups differ
    rw [List.filter_eq_nil_iff]
    intro dochit member
    obtain ⟨other, isOther, inOther⟩ := List.mem_flatten.mp member
    simpa using differ other isOther dochit inOther
  rw [List.flatten_append, List.flatten_cons, List.filter_append, List.filter_append,
    none_of before fun other member => others other (List.mem_append_left after member),
    none_of after fun other member => others other (List.mem_append_right before member),
    List.nil_append, List.append_nil, List.filter_eq_self]
  intro dochit member
  simpa using ofGroup dochit member

/-- Virtual documents partition their list exactly if documents of the same key stand
together in it and their relevances fit. -/
theorem Made.partitions_iff {list : List DocHit} {virtuals : List VirtualDocument}
    (made : Made docattr virtualRules list virtuals) :
    Partitions (virtualIdList docattr virtualRules) list virtuals ↔
      Together (virtualIdList docattr virtualRules) list ∧
        RelevanceFits (virtualIdList docattr virtualRules) list := by
  constructor
  · intro partitions
    constructor
    · intro first between last three same
      by_contra differs
      obtain ⟨before, vd, after, split, dochits, -, others⟩ := partitions.one _
        ⟨first, three.subset List.mem_cons_self, rfl⟩
      have flat := made.flat
      rw [split, List.map_append, List.map_cons, List.flatten_append, List.flatten_cons] at flat
      rw [← flat] at three
      have elsewhere : ∀ dochit, virtualIdList docattr virtualRules dochit =
          virtualIdList docattr virtualRules first →
          dochit ∉ (before.map VirtualDocument.dochits).flatten ∧
            dochit ∉ (after.map VirtualDocument.dochits).flatten := by
        intro dochit isTuple
        constructor <;> intro member <;> rw [List.mem_flatten] at member <;>
          obtain ⟨_, isGroup, inGroup⟩ := member <;>
          obtain ⟨other, isOther, rfl⟩ := List.mem_map.mp isGroup
        · exact others other (List.mem_append_left after isOther) dochit inGroup isTuple
        · exact others other (List.mem_append_right before isOther) dochit inGroup isTuple
      have behind := sublist_of_head_notMem three (elsewhere first rfl).1
      have inside := sublist_of_last_notMem [first, between] behind
        (elsewhere last same.symm).2
      have isBetween : between ∈ vd.dochits := inside.subset (by simp)
      rw [dochits, List.mem_filter] at isBetween
      exact differs (by simpa using isBetween.2)
    · intro tuple
      by_cases occurs : ∃ dochit ∈ list, virtualIdList docattr virtualRules dochit = tuple
      · obtain ⟨before, vd, after, split, dochits, relevance, -⟩ := partitions.one tuple occurs
        have stored := made.relevance vd (by rw [split]; simp)
        rw [← dochits, ← relevance, stored]
        exact Nat.mod_lt _ (by decide)
      · have none_left : (list.filter fun dochit =>
            decide (virtualIdList docattr virtualRules dochit = tuple)) = [] := by
          rw [List.filter_eq_nil_iff]
          intro dochit member
          simpa using fun equal => occurs ⟨dochit, member, equal⟩
        rw [none_left]
        decide
  · rintro ⟨together, fits⟩
    refine ⟨?_, ?_⟩
    · intro vd member
      exact made.grouped.nonempty vd.dochits (List.mem_map_of_mem member)
    · rintro tuple ⟨dochit, member, rfl⟩
      have separate := made.grouped.separate (by rw [made.flat]; exact together)
      rw [← made.flat] at member
      obtain ⟨_, isGroup, inGroup⟩ := List.mem_flatten.mp member
      obtain ⟨vd, isVd, rfl⟩ := List.mem_map.mp isGroup
      obtain ⟨before, after, split⟩ := List.append_of_mem isVd
      rw [split, List.map_append, List.map_cons, Separate, List.pairwise_append,
        List.pairwise_cons] at separate
      obtain ⟨-, ⟨fromVd, -⟩, toVd⟩ := separate
      have others : ∀ other ∈ before ++ after, ∀ entry ∈ other.dochits,
          virtualIdList docattr virtualRules entry ≠ virtualIdList docattr virtualRules dochit := by
        intro other isOther entry isEntry
        rcases List.mem_append.mp isOther with isBefore | isAfter
        · exact toVd _ (List.mem_map_of_mem isBefore) _ List.mem_cons_self entry isEntry dochit
            inGroup
        · exact (fromVd _ (List.mem_map_of_mem isAfter) dochit inGroup entry isEntry).symm
      have dochits : vd.dochits = list.filter (fun entry =>
          decide (virtualIdList docattr virtualRules entry =
            virtualIdList docattr virtualRules dochit)) := by
        rw [← made.flat, split, List.map_append, List.map_cons]
        refine (filter_group ?_ ?_).symm
        · intro entry isEntry
          exact made.grouped.same _ isGroup entry isEntry dochit inGroup
        · intro group isOther entry isEntry
          rw [← List.map_append] at isOther
          obtain ⟨other, inOthers, rfl⟩ := List.mem_map.mp isOther
          exact others other inOthers entry isEntry
      refine ⟨before, vd, after, split, dochits, ?_, others⟩
      rw [made.relevance vd isVd]
      refine Nat.mod_eq_of_lt ?_
      rw [dochits]
      exact fits _

end Making

end Wisebot.Vdoc
