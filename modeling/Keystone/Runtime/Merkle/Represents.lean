import Mathlib.Data.List.Nodup
import Keystone.Runtime.Merkle.Node

/-
  The Merkle tree in memory as a search tree.

  A tree is represented by the nodes at its footprint: each inner node has two children and the hash
  of their records. An insertion into a represented tree passes all its checks and leaves a
  representation of the tree with the new entry.
-/

----
-- The Order of the Keys
----

namespace Keystone

namespace WordOrder

/- Keys are compared as unsigned numbers. -/
scoped instance : LinearOrder Word where
  le_refl := BitVec.le_refl
  le_trans _ _ _ := BitVec.le_trans
  le_antisymm _ _ := BitVec.le_antisymm
  le_total := BitVec.le_total
  lt_iff_le_not_ge x y := by
    rw [BitVec.not_le, BitVec.le_def, BitVec.lt_def]
    omega
  toDecidableLE := inferInstance
  toDecidableEq := inferInstance
  toDecidableLT := inferInstance

end WordOrder

----
-- Trees in Memory
----

open HashTree

abbrev MerkleTree (α : Type) := HashTree Word α

variable {α : Type}

/- The tree at an address. -/
def RepresentsTree (K : NodeHasher α) (mem : Word → MerkleNode α) : Word → MerkleTree α → Prop
| a, .leaf key digest => a ≠ 0 ∧ mem a = { ptr := key, hash := digest, left := 0, right := 0 }
| a, .node split left right =>
  a ≠ 0 ∧ (mem a).ptr = split ∧ (mem a).hash = K.sha256 [(mem (mem a).left).record,
          (mem (mem a).right).record] ∧
    RepresentsTree K mem (mem a).left left ∧
    RepresentsTree K mem (mem a).right right

/- The addresses of the nodes of a tree. -/
def footprint (mem : Word → MerkleNode α) : Word → MerkleTree α → List Word
| a, .leaf _ _ => [a]
| a, .node _ left right =>
  a :: (footprint mem (mem a).left left ++ footprint mem (mem a).right right)

variable {K : NodeHasher α} {mem mem' : Word → MerkleNode α} {a : Word} {t near far : MerkleTree α}
variable {right : Bool} {split : Word}

theorem RepresentsTree.ne_zero (hRep : RepresentsTree K mem a t) : a ≠ 0 := by
  cases t with
  | leaf key digest | node split left right => exact hRep.1

theorem mem_footprint_self : a ∈ footprint mem a t := by
  cases t with
  | leaf key digest => exact List.mem_singleton_self a
  | node split left right => exact List.mem_cons_self

theorem RepresentsTree.record_eq (hRep : RepresentsTree K mem a t) :
    (mem a).record = t.label K.sha256 := by
  induction t generalizing a with
  | leaf key digest =>
    rw [hRep.2]
    rfl
  | node split left right ihLeft ihRight =>
    rcases hRep with ⟨_, hPtr, hHash, hLeft, hRight⟩
    rw [MerkleNode.record, hPtr, hHash, ihLeft hLeft, ihRight hRight]
    rfl

theorem RepresentsTree.labels_mem (hRep : RepresentsTree K mem a t) {l : Word × α}
    (hMem : l ∈ t.labels K.sha256) : ∃ x ∈ footprint mem a t, l = (mem x).record := by
  induction t generalizing a with
  | leaf key digest =>
    refine ⟨a, mem_footprint_self, ?_⟩
    rw [List.mem_singleton.mp hMem, hRep.2]
    rfl
  | node split left right ihLeft ihRight =>
    rcases List.mem_cons.mp hMem with rfl | hBelow
    · exact ⟨a, mem_footprint_self, hRep.record_eq.symm⟩
    · rcases hRep with ⟨_, _, _, hLeft, hRight⟩
      rcases List.mem_append.mp hBelow with hIn | hIn
      · rcases ihLeft hLeft hIn with ⟨x, hX, hEq⟩
        exact ⟨x, List.mem_cons_of_mem a (List.mem_append_left _ hX), hEq⟩
      · rcases ihRight hRight hIn with ⟨x, hX, hEq⟩
        exact ⟨x, List.mem_cons_of_mem a (List.mem_append_right _ hX), hEq⟩

theorem representsTree_join_iff : RepresentsTree K mem a (join right split near far) ↔
    a ≠ 0 ∧ (mem a).ptr = split ∧ (mem a).hash = K.sha256
    (sides right (mem ((mem a).child right)).record (mem ((mem a).child (!right))).record) ∧
    RepresentsTree K mem ((mem a).child right) near ∧
    RepresentsTree K mem ((mem a).child (!right)) far := by
  cases right
  · exact Iff.rfl
  · simp only [join, if_true, RepresentsTree, sides, MerkleNode.child, Bool.not_true]
    tauto

theorem footprint_join_perm : (footprint mem a (join right split near far)).Perm
    (a :: (footprint mem ((mem a).child right) near ++
      footprint mem ((mem a).child (!right)) far)) := by
  cases right
  · exact List.Perm.refl _
  · exact List.Perm.cons a List.perm_append_comm

theorem mem_footprint_join {x : Word} : x ∈ footprint mem a (join right split near far) ↔ x = a ∨
    x ∈ footprint mem ((mem a).child right) near ∨
    x ∈ footprint mem ((mem a).child (!right)) far := by
  rw [footprint_join_perm.mem_iff, List.mem_cons, List.mem_append]

theorem nodup_footprint_join : (footprint mem a (join right split near far)).Nodup ↔
    (a ∉ footprint mem ((mem a).child right) near ∧
      a ∉ footprint mem ((mem a).child (!right)) far) ∧
    (footprint mem ((mem a).child right) near).Nodup ∧
    (footprint mem ((mem a).child (!right)) far).Nodup ∧
    ∀ x ∈ footprint mem ((mem a).child right) near,
    x ∉ footprint mem ((mem a).child (!right)) far := by
  rw [footprint_join_perm.nodup_iff, List.nodup_cons, List.mem_append, not_or, List.nodup_append']
  rfl

theorem representsTree_congr (hRep : RepresentsTree K mem a t)
    (hSame : ∀ x ∈ footprint mem a t, mem' x = mem x) :
    RepresentsTree K mem' a t ∧ footprint mem' a t = footprint mem a t := by
  induction t generalizing a with
  | leaf key digest =>
    refine ⟨⟨hRep.1, ?_⟩, rfl⟩
    rw [hSame a (List.mem_singleton_self a)]
    exact hRep.2
  | node split left right ihLeft ihRight =>
    rcases hRep with ⟨hNe, hPtr, hHash, hLeft, hRight⟩
    have hA : mem' a = mem a := hSame a List.mem_cons_self
    have hIn : ∀ x, x ∈ footprint mem (mem a).left left ∨ x ∈ footprint mem (mem a).right right →
        mem' x = mem x := by
      intro x hMem
      apply hSame
      exact List.mem_cons_of_mem a (List.mem_append.mpr hMem)
    rcases ihLeft hLeft (fun x hX => hIn x (.inl hX)) with ⟨hLeft', hFoot⟩
    rcases ihRight hRight (fun x hX => hIn x (.inr hX)) with ⟨hRight', hFoot'⟩
    have hChild := hIn (mem a).left (.inl mem_footprint_self)
    have hChild' := hIn (mem a).right (.inr mem_footprint_self)
    constructor
    · unfold RepresentsTree
      rw [hA, hChild, hChild']
      exact ⟨hNe, hPtr, hHash, hLeft', hRight'⟩
    · unfold footprint
      rw [hA, hFoot, hFoot']

end Keystone
