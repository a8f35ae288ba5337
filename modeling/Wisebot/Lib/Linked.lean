import Mathlib.Data.List.Nodup
import Mathlib.Data.List.Perm.Basic
import Mathlib.Logic.Function.Basic
import Mathlib.Algebra.Ring.Nat

namespace Wisebot.Lib

/-! Singly linked lists in a memory of next pointers, and pools whose blocks are
shared out over several lists. -/

section Lists

variable {ν : Type} {next next' : ν → Option ν} {root : Option ν}

/-- The nodes that are reached from a root, in order. -/
def Linked (next : ν → Option ν) : Option ν → List ν → Prop
  | root, [] => root = none
  | root, node :: nodes => root = some node ∧ Linked next (next node) nodes

theorem Linked.root_eq {nodes : List ν} (linked : Linked next root nodes) : root = nodes.head? := by
  cases nodes with
  | nil => exact linked
  | cons node nodes => exact linked.1

theorem Linked.unique {first second : List ν} (isFirst : Linked next root first)
    (isSecond : Linked next root second) : first = second := by
  induction first generalizing root second with
  | nil =>
    have empty : root = second.head? := isSecond.root_eq
    rw [show root = none from isFirst] at empty
    exact (List.head?_eq_none_iff.mp empty.symm).symm
  | cons node nodes induction =>
    cases second with
    | nil => exact absurd (isFirst.1.symm.trans isSecond) (Option.some_ne_none node)
    | cons other others =>
      obtain rfl := Option.some_inj.mp (isFirst.1.symm.trans isSecond.1)
      rw [induction isFirst.2 isSecond.2]

theorem Linked.congr {nodes : List ν} (linked : Linked next root nodes)
    (same : ∀ node ∈ nodes, next' node = next node) : Linked next' root nodes := by
  induction nodes generalizing root with
  | nil => exact linked
  | cons node nodes induction =>
    obtain ⟨here, others⟩ := List.forall_mem_cons.mp same
    exact ⟨linked.1, here ▸ induction linked.2 others⟩

/-- The list at a root, cut after `fuel` nodes. -/
def nodesFrom (next : ν → Option ν) : (fuel : Nat) → Option ν → List ν
  | 0, _ => []
  | _ + 1, none => []
  | fuel + 1, some node => node :: nodesFrom next fuel (next node)

theorem Linked.nodesFrom_eq {nodes : List ν} (linked : Linked next root nodes) {fuel : Nat}
    (enough : nodes.length ≤ fuel) : nodesFrom next fuel root = nodes := by
  induction nodes generalizing root fuel with
  | nil =>
    rw [show root = none from linked]
    cases fuel <;> rfl
  | cons node nodes induction =>
    cases fuel with
    | zero => simp at enough
    | succ fuel =>
      rw [linked.1, nodesFrom, induction linked.2 (by simpa using enough)]

variable [DecidableEq ν]

theorem Linked.update {nodes : List ν} (linked : Linked next root nodes) {node : ν}
    (fresh : node ∉ nodes) (target : Option ν) :
    Linked (Function.update next node target) root nodes := by
  refine linked.congr fun other member => ?_
  exact Function.update_of_ne (fun same : other = node => fresh (same ▸ member)) target next

theorem Linked.push {nodes : List ν} (linked : Linked next root nodes) {node : ν}
    (fresh : node ∉ nodes) :
    Linked (Function.update next node root) (some node) (node :: nodes) := by
  refine ⟨rfl, ?_⟩
  rw [Function.update_self]
  exact linked.update fresh root

/-- A node put behind the last one. -/
theorem Linked.concat {nodes : List ν} {last node : ν} (linked : Linked next root (nodes ++ [last]))
    (nodup : (nodes ++ [last]).Nodup) (fresh : node ∉ nodes ++ [last]) (isEnd : next node = none) :
    Linked (Function.update next last (some node)) root (nodes ++ [last] ++ [node]) := by
  induction nodes generalizing root with
  | nil =>
    have different : node ≠ last := fun same => fresh (by simp [same])
    refine ⟨linked.1, ?_, ?_⟩
    · rw [Function.update_self]
    · exact (Function.update_of_ne different _ next).trans isEnd
  | cons first nodes induction =>
    rw [List.cons_append, List.nodup_cons] at nodup
    have different : first ≠ last := fun same => nodup.1 (by simp [same])
    refine ⟨linked.1, ?_⟩
    rw [Function.update_of_ne different]
    exact induction linked.2 nodup.2 fun member => fresh (List.mem_cons_of_mem first member)

end Lists

section Pools

variable {ι ν : Type} {pool : ν → Prop} {free : List ν} {chain : ι → List ν}

/-- Every node of a pool is once in the free list or in one of the chains. -/
structure Shared (pool : ν → Prop) (free : List ν) (chain : ι → List ν) : Prop where
  nodup : ∀ owner, (free ++ chain owner).Nodup
  apart : ∀ owner other, owner ≠ other → (chain owner).Disjoint (chain other)
  covers : ∀ node, (node ∈ free ∨ ∃ owner, node ∈ chain owner) ↔ pool node

theorem Shared.disjoint (shared : Shared pool free chain) (owner : ι) :
    free.Disjoint (chain owner) := List.disjoint_of_nodup_append (shared.nodup owner)

variable [DecidableEq ι]

/-- An owner gives and takes nodes. -/
theorem Shared.exchange (shared : Shared pool free chain) {owner : ι} {free' own : List ν}
    (isPerm : (free' ++ own).Perm (free ++ chain owner)) :
    Shared pool free' (Function.update chain owner own) := by
  have origin : ∀ node, node ∈ free' ∨ node ∈ own ↔ node ∈ free ∨ node ∈ chain owner := by
    intro node
    rw [← List.mem_append, isPerm.mem_iff, List.mem_append]
  have nodupOwn : (free' ++ own).Nodup := isPerm.nodup_iff.mpr (shared.nodup owner)
  have away : ∀ other, other ≠ owner → ∀ node, node ∈ free' ∨ node ∈ own →
      node ∉ chain other := by
    intro other different node member isOther
    rcases (origin node).mp member with isFree | isOwn
    · exact shared.disjoint other isFree isOther
    · exact shared.apart owner other different.symm isOwn isOther
  constructor
  · intro other
    by_cases same : other = owner
    · rw [same, Function.update_self]
      exact nodupOwn
    · rw [Function.update_of_ne same]
      refine (List.nodup_append'.mp nodupOwn).1.append
        (List.nodup_append'.mp (shared.nodup other)).2.1 fun node isFree isOther => ?_
      exact away other same node (.inl isFree) isOther
  · intro first second different
    by_cases isFirst : first = owner
    · have isSecond : second ≠ owner := fun same => different (isFirst.trans same.symm)
      rw [isFirst, Function.update_self, Function.update_of_ne isSecond]
      exact fun node isOwn isOther => away second isSecond node (.inr isOwn) isOther
    · rw [Function.update_of_ne isFirst]
      by_cases isSecond : second = owner
      · rw [isSecond, Function.update_self]
        exact fun node isOther isOwn => away first isFirst node (.inr isOwn) isOther
      · rw [Function.update_of_ne isSecond]
        exact shared.apart first second different
  · intro node
    rw [← shared.covers node]
    constructor
    · rintro (isFree | ⟨other, isOther⟩)
      · rcases (origin node).mp (.inl isFree) with isFree | isOwn
        · exact .inl isFree
        · exact .inr ⟨owner, isOwn⟩
      · by_cases same : other = owner
        · rw [same, Function.update_self] at isOther
          rcases (origin node).mp (.inr isOther) with isFree | isOwn
          · exact .inl isFree
          · exact .inr ⟨owner, isOwn⟩
        · rw [Function.update_of_ne same] at isOther
          exact .inr ⟨other, isOther⟩
    · have ofOrigin : node ∈ free ∨ node ∈ chain owner →
          node ∈ free' ∨ ∃ other, node ∈ Function.update chain owner own other := by
        intro member
        rcases (origin node).mpr member with isFree | isOwn
        · exact .inl isFree
        · exact .inr ⟨owner, by rwa [Function.update_self]⟩
      rintro (isFree | ⟨other, isOther⟩)
      · exact ofOrigin (.inl isFree)
      · by_cases same : other = owner
        · exact ofOrigin (.inr (same ▸ isOther))
        · exact .inr ⟨other, by rwa [Function.update_of_ne same]⟩

end Pools

end Wisebot.Lib
