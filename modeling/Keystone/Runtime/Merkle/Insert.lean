import Keystone.Runtime.Merkle.Represents

/-
  Insertion into a tree that nobody tampered with.

  The walk down ends at a leaf of the represented tree. The way back up passes every check, splices
  the new node in and leaves a representation of the tree with the new entry, at addresses that were
  in use before or are new.
-/

----
-- The State After the New Node Was Written
----

namespace Keystone

open HashTree
open scoped WordOrder
open MerkleState (write write_mem_of_ne write_mem_self)
open MerkleNode (child_setChild record)

variable {α : Type}

/- A call of `merk_insert` with its new node in memory. The root is not in the backing store. -/
structure Insertion (α : Type) where
  K : NodeHasher α
  root : Word
  key : Word
  hash : α
  newNode : Word
  s : MerkleState α
  handed : Set Word
  inv : s.alloc.Inv handed
  root_out : ¬ s.alloc.backing.InRegion root
  new_live : s.alloc.Live newNode
  new_mem : s.mem newNode = { ptr := key, hash := hash, left := 0, right := 0 }

namespace Insertion

variable (I : Insertion α)

/- The addresses in use before the call. -/
def Old (x : Word) : Prop := I.s.alloc.Live x ∧ x ≠ I.newNode ∨ x = I.root

theorem newNode_ne_root : I.newNode ≠ I.root := by
  intro hEq
  apply I.root_out
  rw [← hEq]
  exact (I.inv.live_inRegion I.new_live).1

theorem not_old_newNode : ¬ I.Old I.newNode := by
  rintro (⟨_, hNe⟩ | hRoot)
  · exact hNe rfl
  · exact I.newNode_ne_root hRoot

theorem not_old_of_allocated {x : Word} {a' : MerkleAlloc} {handed' : Set Word}
    (hAlloc : I.s.alloc.Allocated x a') (hInv : a'.Inv handed') : ¬ I.Old x := by
  rintro (⟨hLive, _⟩ | hRoot)
  · exact hAlloc.fresh hLive
  · have hLive : a'.Live x := (hAlloc.live_iff x).mpr (.inr rfl)
    have hIn := (hInv.live_inRegion hLive).1
    rw [hAlloc.region.inRegion_iff, hRoot] at hIn
    exact I.root_out hIn

/- The subtree `t` at `b` has become a subtree with the new entry, at `b'`. Its nodes are live, and
   were nodes of `t` or not in use. -/
structure Settled (b : Word) (t : MerkleTree α) (b' : Word) (s' : MerkleState α) : Prop where
  rep : RepresentsTree I.K s'.mem b' (t.insert I.key I.hash)
  nodup : (footprint s'.mem b' (t.insert I.key I.hash)).Nodup
  own : ∀ x ∈ footprint s'.mem b' (t.insert I.key I.hash), s'.alloc.Live x ∧
        (x ∈ footprint I.s.mem b t ∨ ¬ I.Old x)
  frame : ∀ x, I.Old x → x ∉ footprint I.s.mem b t → s'.mem x = I.s.mem x
  live : ∀ x, I.s.alloc.Live x → x ≠ I.newNode → x ∉ footprint I.s.mem b t → s'.alloc.Live x
  inv : ∃ handed', s'.alloc.Inv handed' ∧ I.handed ⊆ handed'
  region : I.s.alloc.backing.SameRegion s'.alloc.backing

----
-- Splicing at a Leaf
----

variable {b leafKey : Word} {digest : α} {alloc : MerkleAlloc}

theorem settled_of_replace (hKey : I.key = leafKey) (hNe : b ≠ I.newNode)
    (hInv : alloc.Inv I.handed) (hLive : ∀ y, alloc.Live y ↔ I.s.alloc.Live y ∧ y ≠ b)
    (hRegion : I.s.alloc.backing.SameRegion alloc.backing) :
    I.Settled b (.leaf leafKey digest) I.newNode { I.s with alloc := alloc } := by
  have hInsert : (HashTree.leaf leafKey digest).insert I.key I.hash = .leaf I.key I.hash := by
    simp [HashTree.insert, hKey]
  have hNewLive : alloc.Live I.newNode := (hLive I.newNode).mpr ⟨I.new_live, hNe.symm⟩
  refine
    { rep := ?_, nodup := ?_, own := ?_
      frame := fun _ _ _ => rfl
      live := ?_
      inv := ⟨I.handed, hInv, fun _ h => h⟩
      region := hRegion }
  · rw [hInsert]
    exact ⟨(I.inv.live_inRegion I.new_live).2, I.new_mem⟩
  · rw [hInsert]
    exact List.nodup_singleton _
  · rw [hInsert]
    intro x hMem
    rw [List.mem_singleton.mp hMem]
    exact ⟨hNewLive, .inr I.not_old_newNode⟩
  · intro x hX _ hOut
    apply (hLive x).mpr
    refine ⟨hX, ?_⟩
    rintro rfl
    exact hOut (List.mem_singleton_self x)

/- The leaf gets the new node as its sibling, below a new parent. -/
theorem settled_of_parent {handed' : Set Word} {parent : Word} {right : Bool} {s' : MerkleState α}
    (hSide : right = decide (I.key < leafKey)) (hKey : I.key ≠ leafKey)
    (hLeaf : RepresentsTree I.K I.s.mem b (.leaf leafKey digest)) (hLeafLive : I.s.alloc.Live b)
    (hNe : b ≠ I.newNode) (hAlloc : I.s.alloc.Allocated parent alloc) (hInv : alloc.Inv handed')
    (hHanded : I.handed ⊆ handed') (hState : s' = ({ I.s with alloc := alloc }).write parent
          { ptr := if right then leafKey else I.key
            hash :=
              I.K.sha256
                (sides right (leafKey, digest)
                  (I.key, I.hash))
            left := if right then I.newNode else b
            right := if right then b else I.newNode }) :
    I.Settled b (.leaf leafKey digest) parent s' := by
  have hInsert : (HashTree.leaf leafKey digest).insert I.key I.hash =
      join right (if right then leafKey else I.key)
      (.leaf leafKey digest) (.leaf I.key I.hash) := by
    by_cases hLt : I.key < leafKey
    · simp [HashTree.insert, hKey, hSide, hLt, join]
    · simp [HashTree.insert, hKey, hSide, hLt, join]
  have hParentLive : alloc.Live parent := (hAlloc.live_iff parent).mpr (.inr rfl)
  have hNeNew : I.newNode ≠ parent := by
    rintro rfl
    exact hAlloc.fresh I.new_live
  have hNeLeaf : b ≠ parent := by
    rintro rfl
    exact hAlloc.fresh hLeafLive
  have hNotOld := I.not_old_of_allocated hAlloc hInv
  have hMemLeaf : s'.mem b = I.s.mem b := by
    simp [hState, write, hNeLeaf]
  have hMemNew : s'.mem I.newNode = I.s.mem I.newNode := by
    simp [hState, write, hNeNew]
  have hNear : (s'.mem parent).child right = b := by
    cases right <;> simp [hState, write, MerkleNode.child]
  have hFar : (s'.mem parent).child (!right) = I.newNode := by
    cases right <;> simp [hState, write, MerkleNode.child]
  have hFoot : footprint s'.mem b (.leaf leafKey digest) = [b] := rfl
  have hFoot' : footprint s'.mem I.newNode (.leaf I.key I.hash) = [I.newNode] := rfl
  refine
    { rep := ?_, nodup := ?_, own := ?_, frame := ?_
      live := ?_, inv := ⟨handed', ?_, hHanded⟩
      region := ?_ }
  · rw [hInsert, representsTree_join_iff, hNear, hFar, hMemLeaf, hMemNew, hLeaf.2, I.new_mem]
    refine ⟨(hInv.live_inRegion hParentLive).2, ?_, ?_, ⟨hLeaf.1, ?_⟩,
      ⟨(I.inv.live_inRegion I.new_live).2, ?_⟩⟩
    · simp [hState, write]
    · simp [hState, write, record]
    · rw [hMemLeaf, hLeaf.2]
    · rw [hMemNew, I.new_mem]
  · rw [hInsert, nodup_footprint_join, hNear, hFar, hFoot, hFoot']
    refine ⟨⟨?_, ?_⟩, List.nodup_singleton b, List.nodup_singleton _, ?_⟩
    · simpa using hNeLeaf.symm
    · simpa using hNeNew.symm
    · simpa using hNe
  · rw [hInsert]
    intro x hMem
    rw [mem_footprint_join, hNear, hFar, hFoot, hFoot',
      List.mem_singleton, List.mem_singleton] at hMem
    have hAlive : ∀ y, I.s.alloc.Live y → s'.alloc.Live y := by
      intro y hLive
      rw [hState]
      exact (hAlloc.live_iff y).mpr (.inl hLive)
    rcases hMem with rfl | rfl | rfl
    · refine ⟨?_, .inr hNotOld⟩
      rw [hState]
      exact hParentLive
    · exact ⟨hAlive x hLeafLive, .inl (List.mem_singleton_self x)⟩
    · exact ⟨hAlive I.newNode I.new_live, .inr I.not_old_newNode⟩
  · intro x hOld hOut
    have hNeX : x ≠ parent := by
      rintro rfl
      exact hNotOld hOld
    simp [hState, write, hNeX]
  · intro x hX _ _
    rw [hState]
    exact (hAlloc.live_iff x).mpr (.inl hX)
  · rw [hState]
    exact hInv
  · rw [hState]
    exact hAlloc.region

/- Splicing the new node in at a leaf. -/
theorem merkSpliceNode_settled [DecidableEq α]
    (hLeaf : RepresentsTree I.K I.s.mem b (.leaf leafKey digest)) (hLeafLive : I.s.alloc.Live b)
    (hNe : b ≠ I.newNode) : merkSpliceNode I.K b I.newNode I.s = .error .noBackingPage ∨ ∃ b' s',
    merkSpliceNode I.K b I.newNode I.s = .ok (b', s') ∧
    I.Settled b (.leaf leafKey digest) b' s' := by
  have hNewPtr : (I.s.mem I.newNode).ptr = I.key := by
    rw [I.new_mem]
  have hLeafPtr : (I.s.mem b).ptr = leafKey := by
    rw [hLeaf.2]
  unfold merkSpliceNode
  rw [hNewPtr, hLeafPtr]
  by_cases hKey : I.key = leafKey
  · right
    rcases merkFreeNode_spec I.inv hLeafLive with ⟨alloc, hFree, hInv, hLive, hRegion⟩
    refine ⟨I.newNode, { I.s with alloc := alloc }, ?_,
      I.settled_of_replace hKey hNe hInv hLive hRegion⟩
    rw [if_pos hKey, hFree]
    rfl
  · rw [if_neg hKey]
    rcases merkAllocNode_spec I.inv with hNone | ⟨parent, alloc, handed', hOk, hInv, hHanded,
        hAlloc⟩
    · left
      rw [hNone]
      rfl
    · right
      have hNeNew : I.newNode ≠ parent := by
        rintro rfl
        exact hAlloc.fresh I.new_live
      have hNeLeaf : b ≠ parent := by
        rintro rfl
        exact hAlloc.fresh hLeafLive
      refine ⟨parent, _, ?_, I.settled_of_parent rfl hKey hLeaf hLeafLive hNe
          hAlloc hInv hHanded rfl⟩
      rw [hOk]
      simp only [bind, Except.bind]
      by_cases hLt : I.key < leafKey
      all_goals
        simp [hLt, write, merkHashSingleNode,
          childRecords, record, hNeNew, hNeLeaf,
          hLeaf.2, I.new_mem, sides]
        rfl

----
-- One Step Up
----

/- A subtree that was there before the call. -/
structure Subtree (b : Word) (t : MerkleTree α) : Prop where
  rep : RepresentsTree I.K I.s.mem b t
  nodup : (footprint I.s.mem b t).Nodup
  live : ∀ x ∈ footprint I.s.mem b t, I.s.alloc.Live x ∧ x ≠ I.newNode

/- The climb has reached the node at `b`: all below it is done, and `currNode` is what will be
   written there. At a leaf nothing is done yet. -/
inductive Pending (b : Word) : MerkleTree α → MerkleNode α → MerkleState α → Prop where
| leaf (key : Word) (digest : α) : Pending b (.leaf key digest) (I.s.mem b) I.s
| inner {t : MerkleTree α} {currNode : MerkleNode α} {s' : MerkleState α} :
    currNode.isLeaf = false → s'.mem b = I.s.mem b → I.Settled b t b (s'.write b currNode) →
          Pending b t currNode s'

variable {I} {t : MerkleTree α} {currNode : MerkleNode α} {s' : MerkleState α}

theorem Subtree.old (hSub : I.Subtree b t) {x : Word} (hMem : x ∈ footprint I.s.mem b t) :
    I.Old x :=
  .inl (hSub.live x hMem)

theorem Pending.same (hPending : I.Pending b t currNode s') : s'.mem b = I.s.mem b := by
  cases hPending with
  | leaf key digest => rfl
  | inner _ hSame _ => exact hSame

theorem Pending.frame (hPending : I.Pending b t currNode s') {x : Word} (hOld : I.Old x)
    (hOut : x ∉ footprint I.s.mem b t) : s'.mem x = I.s.mem x := by
  cases hPending with
  | leaf key digest => rfl
  | inner _ _ hSettled =>
    have hNe : x ≠ b := by
      rintro rfl
      exact hOut mem_footprint_self
    have hFrame := hSettled.frame x hOld hOut
    rwa [write_mem_of_ne hNe] at hFrame

variable {right : Bool} {a split : Word} {far : MerkleTree α}

theorem merkAttach_settled [DecidableEq α] (hSub : I.Subtree b t)
    (hPending : I.Pending b t currNode s') {parent : MerkleNode α}
    (hChild : parent.child right = b) :
    merkAttach I.K I.newNode b right currNode parent s' = .error .noBackingPage ∨
    ∃ b' currNode' s'', merkAttach I.K I.newNode b right currNode parent s' =
    .ok (b', currNode', parent.setChild right b', s'') ∧
    I.Settled b t b' (s''.write b' currNode') := by
  cases hPending with
  | leaf key digest =>
    have hLive := hSub.live b mem_footprint_self
    have hLeaf : (I.s.mem b).isLeaf = true := by
      rw [hSub.rep.2]
      rfl
    unfold merkAttach
    rw [if_pos hLeaf]
    rcases I.merkSpliceNode_settled hSub.rep hLive.1 hLive.2 with hNone | ⟨b', s'', hOk, hSettled⟩
    · left
      rw [hNone]
      rfl
    · right
      refine ⟨b', s''.mem b', s'', ?_, ?_⟩
      · rw [hOk]
        rfl
      · rw [MerkleState.write_self]
        exact hSettled
  | inner hInner _ hSettled =>
    right
    refine ⟨b, currNode, s', ?_, hSettled⟩
    unfold merkAttach
    rw [← hChild, MerkleNode.setChild_child, hInner]
    rfl

/- The node `a` with its child on the given side settled: what the climb writes at `a` next. -/
theorem settled_parent {b' : Word} {below after : MerkleState α}
    (hSide : right = !decide (I.key < split)) (hSub : I.Subtree a (join right split t far))
    (hSettled : I.Settled ((I.s.mem a).child right) t b' below)
    (hAfter : after = below.write a (merkRehash I.K right true (below.mem b')
      ((I.s.mem a).setChild right b')
      (I.s.mem ((I.s.mem a).child (!right))))) : I.Settled a (join right split t far) a after := by
  rcases representsTree_join_iff.mp hSub.rep with ⟨hNe, hPtr, _, _, hFar⟩
  rcases nodup_footprint_join.mp hSub.nodup with ⟨⟨hANear, hAFar⟩, _, hFarNodup, hApart⟩
  have hAMem : a ∈ footprint I.s.mem a (join right split t far) := mem_footprint_self
  have hAOld : I.Old a := hSub.old hAMem
  generalize hF : (I.s.mem a).child (!right) = f at *
  generalize hB : (I.s.mem a).child right = b at *
  -- the settled child does not use the address `a`
  have hOut : ∀ x ∈ footprint below.mem b' (t.insert I.key I.hash), x ≠ a := by
    rintro x hMem rfl
    rcases (hSettled.own x hMem).2 with hNear | hNotOld
    · exact hANear hNear
    · exact hNotOld hAOld
  have hFarOld : ∀ x ∈ footprint I.s.mem f far, I.s.alloc.Live x ∧ x ≠ I.newNode := by
    intro x hMem
    apply hSub.live
    rw [mem_footprint_join, hF]
    exact .inr (.inr hMem)
  have hFarOut : ∀ x ∈ footprint I.s.mem f far, x ∉ footprint I.s.mem b t := by
    intro x hMem hNear
    exact hApart x hNear hMem
  have hAt : after.mem a =
        { (I.s.mem a).setChild right b' with
          hash :=
            I.K.sha256
              (sides right (below.mem b').record
                (I.s.mem f).record) } := by
    rw [hAfter, write_mem_self, merkRehash_of_sibling]
  have hElse : ∀ x ≠ a, after.mem x = below.mem x := by
    intro x hX
    rw [hAfter, write_mem_of_ne hX]
  have hAlloc : after.alloc = below.alloc := by
    rw [hAfter, MerkleState.write_alloc]
  have hFarSame : ∀ x ∈ footprint I.s.mem f far, after.mem x = I.s.mem x := by
    intro x hMem
    have hX : x ≠ a := by
      rintro rfl
      exact hAFar hMem
    rw [hElse x hX]
    exact hSettled.frame x (.inl (hFarOld x hMem)) (hFarOut x hMem)
  have hNear' : (after.mem a).child right = b' := by
    rw [hAt]
    cases right <;> rfl
  have hFar' : (after.mem a).child (!right) = f := by
    rw [hAt, ← hF]
    cases right <;> rfl
  rcases representsTree_congr hSettled.rep (fun x hMem => hElse x (hOut x hMem)) with
    ⟨hRepNear, hFootNear⟩
  rcases representsTree_congr hFar hFarSame with ⟨hRepFar, hFootFar⟩
  refine { rep := ?_, nodup := ?_, own := ?_, frame := ?_, live := ?_, inv := ?_, region := ?_ }
  · rw [insert_join hSide, representsTree_join_iff, hNear', hFar']
    refine ⟨hNe, ?_, ?_, hRepNear, hRepFar⟩
    · rw [hAt, ← hPtr]
      exact MerkleNode.setChild_ptr _ _ _
    · rw [hElse b' (hOut b' mem_footprint_self), hFarSame f mem_footprint_self, hAt]
  · rw [insert_join hSide, nodup_footprint_join, hNear', hFar', hFootNear, hFootFar]
    refine ⟨⟨fun hMem => hOut a hMem rfl, hAFar⟩, hSettled.nodup, hFarNodup, ?_⟩
    intro x hMem hMem'
    rcases (hSettled.own x hMem).2 with hNear | hNotOld
    · exact hApart x hNear hMem'
    · exact hNotOld (.inl (hFarOld x hMem'))
  · intro x hMem
    rw [insert_join hSide, mem_footprint_join, hNear', hFar', hFootNear, hFootFar] at hMem
    rw [mem_footprint_join, hB, hF, hAlloc]
    rcases hMem with rfl | hNear | hIn
    · have hLive := hSub.live x hAMem
      exact ⟨hSettled.live x hLive.1 hLive.2 hANear, .inl (.inl rfl)⟩
    · rcases hSettled.own x hNear with ⟨hLive, hWhere⟩
      exact ⟨hLive, hWhere.imp (.inr ∘ .inl) id⟩
    · have hLive := hFarOld x hIn
      exact ⟨hSettled.live x hLive.1 hLive.2 (hFarOut x hIn), .inl (.inr (.inr hIn))⟩
  · intro x hOld hMem
    rw [mem_footprint_join, hB, hF, not_or, not_or] at hMem
    rw [hElse x hMem.1]
    exact hSettled.frame x hOld hMem.2.1
  · intro x hLive hNew hMem
    rw [mem_footprint_join, hB, hF, not_or, not_or] at hMem
    rw [hAlloc]
    exact hSettled.live x hLive hNew hMem.2.1
  · rw [hAlloc]
    exact hSettled.inv
  · rw [hAlloc]
    exact hSettled.region

section

variable (hSub : I.Subtree a (join right split t far))
include hSub

/- A node with two children knows on which side the child it was reached from is. -/
theorem Subtree.nodeIdx_eq : (I.s.mem a).nodeIdx ((I.s.mem a).child right) = right := by
  rcases nodup_footprint_join.mp hSub.nodup with ⟨_, _, _, hApart⟩
  cases right
  · have hNe : (I.s.mem a).right ≠ (I.s.mem a).left := by
      intro hEq
      apply hApart (I.s.mem a).left mem_footprint_self
      rw [← hEq]
      exact mem_footprint_self
    exact decide_eq_false hNe
  · exact decide_eq_true rfl

theorem Subtree.hasSibling_eq : (I.s.mem a).hasSibling = true := by
  rcases representsTree_join_iff.mp hSub.rep with ⟨_, _, _, hNear, hFar⟩
  exact (MerkleNode.hasSibling_iff right).mpr ⟨hNear.ne_zero, hFar.ne_zero⟩

theorem Subtree.near : I.Subtree ((I.s.mem a).child right) t := by
  rcases representsTree_join_iff.mp hSub.rep with ⟨_, _, _, hNear, _⟩
  rcases nodup_footprint_join.mp hSub.nodup with ⟨_, hNodup, _, _⟩
  refine ⟨hNear, hNodup, ?_⟩
  intro x hMem
  apply hSub.live
  rw [mem_footprint_join]
  exact .inr (.inl hMem)

theorem Subtree.merkSiblingOk_eq [DecidableEq α]
    (hNear : s'.mem ((I.s.mem a).child right) = I.s.mem ((I.s.mem a).child right))
    (hFar : s'.mem ((I.s.mem a).child (!right)) = I.s.mem ((I.s.mem a).child (!right))) :
    merkSiblingOk I.K ((I.s.mem a).child right) right (I.s.mem a) s' = true := by
  rcases representsTree_join_iff.mp hSub.rep with ⟨_, _, hHash, _, _⟩
  rw [merkSiblingOk_iff, hNear, hFar, hHash]

end

/- One round of the climb, from a child to its parent. -/
theorem merkClimb_step [DecidableEq α] (above : List Word) (hSide : right = !decide (I.key < split))
    (hSub : I.Subtree a (join right split t far))
    (hPending : I.Pending ((I.s.mem a).child right) t currNode s') :
    merkClimb I.K I.root I.newNode ((I.s.mem a).child right) (a :: above) currNode s' =
    .error .noBackingPage ∨
    ∃ currNode' s'', merkClimb I.K I.root I.newNode
    ((I.s.mem a).child right) (a :: above) currNode
    s' =
    merkClimb I.K I.root I.newNode a above currNode' s'' ∧
    I.Pending a (join right split t far) currNode'
    s'' := by
  rcases nodup_footprint_join.mp hSub.nodup with ⟨⟨hANear, _⟩, _, _, hApart⟩
  have hFarMem : (I.s.mem a).child (!right) ∈ footprint I.s.mem ((I.s.mem a).child (!right)) far :=
    mem_footprint_self
  have hAOld := hSub.old mem_footprint_self
  have hFarOld : I.Old ((I.s.mem a).child (!right)) := by
    apply hSub.old
    rw [mem_footprint_join]
    exact .inr (.inr hFarMem)
  have hA : s'.mem a = I.s.mem a := hPending.frame hAOld hANear
  have hFar : s'.mem ((I.s.mem a).child (!right)) = I.s.mem ((I.s.mem a).child (!right)) :=
    hPending.frame hFarOld (fun hMem => hApart _ hMem hFarMem)
  have hCheck : (s'.mem a).hasSibling = true → merkSiblingOk I.K ((I.s.mem a).child right)
      ((s'.mem a).nodeIdx ((I.s.mem a).child right))
      (s'.mem a) s' = true := by
    intro _
    rw [hA, hSub.nodeIdx_eq]
    exact hSub.merkSiblingOk_eq hPending.same hFar
  rcases merkAttach_settled hSub.near hPending rfl with
    hNone | ⟨b', currNode', s'', hAttach, hSettled⟩
  · left
    apply merkClimb_of_attach_error hCheck
    rw [hA, hSub.nodeIdx_eq]
    exact hNone
  · right
    have hStepped : MerkStepped I.K I.newNode ((I.s.mem a).child right) a currNode s' b' currNode'
        ((I.s.mem a).setChild right b') s'' := by
      refine ⟨hCheck, ?_, ?_⟩
      · rw [hA, hSub.nodeIdx_eq]
        exact hAttach
      · rw [hA, hSub.nodeIdx_eq, child_setChild]
    refine ⟨_, _, merkClimb_of_stepped hStepped, ?_⟩
    have hParent : merkStepParent I.K ((I.s.mem a).child right) a s'
        currNode' ((I.s.mem a).setChild right b') =
        merkRehash I.K right true ((s''.write b' currNode').mem b')
        ((I.s.mem a).setChild right b')
        (I.s.mem ((I.s.mem a).child (!right))) := by
      unfold merkStepParent
      rw [hA, hSub.nodeIdx_eq, hSub.hasSibling_eq, hFar, write_mem_self]
    rw [hParent]
    refine .inner ?_ (hSettled.frame a hAOld hANear) (settled_parent hSide hSub hSettled rfl)
    rw [merkRehash_of_sibling]
    apply MerkleNode.isLeaf_eq_false_of_child
    change ((I.s.mem a).setChild right b').child right ≠ 0
    rw [child_setChild]
    exact hSettled.rep.ne_zero

----
-- The Whole Climb
----

variable [DecidableEq α] {I : Insertion α}

/- From the end of the walk, the climb comes back to the node at which the walk entered the subtree.
   The induction is on the tree along the search for the key. -/
theorem merkClimb_pending {t : MerkleTree α} {a : Word} (hSub : I.Subtree a t) {steps : Nat}
    (hDepth : t.depth I.key ≤ steps) (above : List Word) :
    merkClimb I.K I.root I.newNode (merkWalk I.s.mem I.key steps a above).1
    (merkWalk I.s.mem I.key steps a above).2
    (I.s.mem (merkWalk I.s.mem I.key steps a above).1)
    I.s =
    .error .noBackingPage ∨
    ∃ currNode s', merkClimb I.K I.root I.newNode (merkWalk I.s.mem I.key steps a above).1
    (merkWalk I.s.mem I.key steps a above).2
    (I.s.mem (merkWalk I.s.mem I.key steps a above).1)
    I.s =
    merkClimb I.K I.root I.newNode a above currNode s' ∧
    I.Pending a t currNode s' := by
  induction t using induction_join (k := I.key) generalizing a steps above with
  | leaf key digest =>
    right
    have hLeaf : (I.s.mem a).isLeaf = true := by
      rw [hSub.rep.2]
      rfl
    rw [merkWalk_of_isLeaf hLeaf]
    exact ⟨_, _, rfl, .leaf key digest⟩
  | join right split near far hSide ih =>
    rcases representsTree_join_iff.mp hSub.rep with ⟨_, hPtr, _, hNear, _⟩
    rw [depth_join hSide] at hDepth
    cases steps with
    | zero => omega
    | succ steps =>
      have hSide' : right = !decide (I.key < (I.s.mem a).ptr) := by
        rw [hPtr]
        exact hSide
      rw [merkWalk_of_child hSide' hNear.ne_zero]
      rcases ih hSub.near (Nat.le_of_succ_le_succ hDepth) (a :: above) with
        hNone | ⟨currNode, s', hClimb, hPending⟩
      · exact .inl hNone
      · rw [hClimb]
        exact merkClimb_step above hSide hSub hPending

end Insertion

----
-- Insertion
----

variable {root key : Word} {handed : Set Word}

/- The root node is trusted and not in the backing store. -/
structure MerkleState.Sound (s : MerkleState α) (root : Word) (handed : Set Word) : Prop where
  inv : s.alloc.Inv handed
  root_out : ¬ s.alloc.backing.InRegion root

variable (K : NodeHasher α)

/- The root leads to a tree of live nodes, and holds the hash of its record. -/
structure TreeAt (root : Word) (s : MerkleState α)
    (t : MerkleTree α) : Prop where
  root_ptr : (s.mem root).ptr = 0
  root_left : (s.mem root).left = 0
  root_hash : (s.mem root).hash = K.sha256 [(s.mem (s.mem root).right).record]
  rep : RepresentsTree K s.mem (s.mem root).right t
  nodup : (footprint s.mem (s.mem root).right t).Nodup
  live : ∀ x ∈ footprint s.mem (s.mem root).right t, s.alloc.Live x

/- The root before the first insertion. -/
structure EmptyRoot (root : Word) (s : MerkleState α) : Prop where
  root_ptr : (s.mem root).ptr = 0
  root_left : (s.mem root).left = 0
  root_right : (s.mem root).right = 0

/- The tree below the root, if there is one yet. -/
def HoldsTree (root : Word) (s : MerkleState α) : Option (MerkleTree α) → Prop
| none => EmptyRoot root s
| some t => TreeAt K root s t

def insertOpt (key : Word) (hash : α) : Option (MerkleTree α) → MerkleTree α
| none => .leaf key hash
| some t => t.insert key hash

/- How far the search for a key goes down from the root. -/
def depthOpt (key : Word) : Option (MerkleTree α) → Nat
| none => 0
| some t => t.depth key + 1

variable {I : Insertion α} {t : MerkleTree α} {s : MerkleState α}

theorem Insertion.Settled.treeAt {b b' : Word} {below : MerkleState α} {node : MerkleNode α}
    (hSettled : I.Settled b t b' below) (hPtr : node.ptr = 0) (hLeft : node.left = 0)
    (hRight : node.right = b') (hHash : node.hash = I.K.sha256 [(below.mem b').record]) :
    TreeAt I.K I.root (below.write I.root node) (t.insert I.key I.hash) := by
  rcases hSettled.inv with ⟨handed', hInv, _⟩
  have hNe : ∀ x ∈ footprint below.mem b' (t.insert I.key I.hash), x ≠ I.root := by
    rintro x hMem rfl
    apply I.root_out
    rw [← hSettled.region.inRegion_iff]
    exact (hInv.live_inRegion (hSettled.own _ hMem).1).1
  rcases representsTree_congr hSettled.rep (fun x hMem =>
        write_mem_of_ne (hNe x hMem)) with
    ⟨hRep, hFoot⟩
  refine { root_ptr := ?_, root_left := ?_, root_hash := ?_, rep := ?_, nodup := ?_, live := ?_ }
  · rw [write_mem_self, hPtr]
  · rw [write_mem_self, hLeft]
  · rw [write_mem_self, hRight, hHash, write_mem_of_ne
        (hNe b' mem_footprint_self)]
  · rw [write_mem_self, hRight]
    exact hRep
  · rw [write_mem_self, hRight, hFoot]
    exact hSettled.nodup
  · intro x hMem
    rw [write_mem_self, hRight, hFoot] at hMem
    exact (hSettled.own x hMem).1

theorem Insertion.treeAt_first (I : Insertion α) (hPtr : (I.s.mem I.root).ptr = 0)
    (hLeft : (I.s.mem I.root).left = 0) : TreeAt I.K I.root (I.s.write I.root
        { merkHashSingleNode I.K (I.s.mem I.root) none
            (some (I.s.mem I.newNode)) with
          right := I.newNode })
      (.leaf I.key I.hash) := by
  have hNe := I.newNode_ne_root
  refine
    { root_ptr := ?_, root_left := ?_, root_hash := ?_
      rep := ?_, nodup := List.nodup_singleton _
      live := ?_ }
  · rw [write_mem_self]
    exact hPtr
  · rw [write_mem_self]
    exact hLeft
  · rw [write_mem_self, write_mem_of_ne hNe]
    rfl
  · rw [write_mem_self]
    refine ⟨(I.inv.live_inRegion I.new_live).2, ?_⟩
    rw [write_mem_of_ne hNe]
    exact I.new_mem
  · intro x hMem
    rw [write_mem_self] at hMem
    rw [List.mem_singleton.mp hMem]
    exact I.new_live

variable [DecidableEq α]

/- The last round of the climb, at the root. -/
theorem Insertion.merkClimb_root {currNode : MerkleNode α} {s' : MerkleState α}
    (hPtr : (I.s.mem I.root).ptr = 0) (hLeft : (I.s.mem I.root).left = 0)
    (hSub : I.Subtree (I.s.mem I.root).right t)
    (hPending : I.Pending (I.s.mem I.root).right t currNode s') :
    merkClimb I.K I.root I.newNode (I.s.mem I.root).right [I.root] currNode s' =
    .error .noBackingPage ∨
    ∃ b' below node, merkClimb I.K I.root I.newNode (I.s.mem I.root).right [I.root] currNode s' =
    .ok (0, below.write I.root node) ∧
    I.Settled (I.s.mem I.root).right t b' below ∧
    TreeAt I.K I.root (below.write I.root node) (t.insert I.key I.hash) := by
  have hRootOut : I.root ∉ footprint I.s.mem (I.s.mem I.root).right t := by
    intro hMem
    have hLive := (hSub.live I.root hMem).1
    exact I.root_out (I.inv.live_inRegion hLive).1
  have hRoot : s'.mem I.root = I.s.mem I.root := hPending.frame (.inr rfl) hRootOut
  have hSibling : (I.s.mem I.root).hasSibling = false := by
    unfold MerkleNode.hasSibling
    rw [hLeft]
    rfl
  have hIdx : (I.s.mem I.root).nodeIdx (I.s.mem I.root).right =
      true :=
    decide_eq_true rfl
  have hCheck : (s'.mem I.root).hasSibling = true → merkSiblingOk I.K (I.s.mem I.root).right
      ((s'.mem I.root).nodeIdx (I.s.mem I.root).right)
      (s'.mem I.root) s' = true := by
    intro hTrue
    rw [hRoot, hSibling] at hTrue
    cases hTrue
  have hChild : (I.s.mem I.root).child true = (I.s.mem I.root).right := rfl
  rcases merkAttach_settled hSub hPending hChild with
    hNone | ⟨b', currNode', s'', hAttach, hSettled⟩
  · left
    apply merkClimb_of_attach_error hCheck
    rw [hRoot, hIdx]
    exact hNone
  · right
    have hStepped : MerkStepped I.K I.newNode (I.s.mem I.root).right I.root currNode s' b' currNode'
        ((I.s.mem I.root).setChild true b') s'' := by
      refine ⟨hCheck, ?_, ?_⟩
      · rw [hRoot, hIdx]
        exact hAttach
      · rw [hRoot, hIdx, child_setChild]
    refine ⟨b', s''.write b' currNode', _, (merkClimb_of_stepped hStepped).trans rfl, hSettled, ?_⟩
    unfold merkStepParent
    rw [hRoot, hIdx, hSibling]
    refine hSettled.treeAt hPtr hLeft rfl ?_
    rw [write_mem_self]
    rfl

theorem Insertion.merkClimb_spec (I : Insertion α) (hPtr : (I.s.mem I.root).ptr = 0)
    (hLeft : (I.s.mem I.root).left = 0) (hSub : I.Subtree (I.s.mem I.root).right t) {steps : Nat}
    (hDepth : t.depth I.key ≤ steps) :
    merkClimb I.K I.root I.newNode (merkWalk I.s.mem I.key (steps + 1) I.root []).1
    (merkWalk I.s.mem I.key (steps + 1) I.root []).2
    (I.s.mem (merkWalk I.s.mem I.key (steps + 1) I.root []).1) I.s =
    .error .noBackingPage ∨
    ∃ s' handed', merkClimb I.K I.root I.newNode (merkWalk I.s.mem I.key (steps + 1) I.root []).1
    (merkWalk I.s.mem I.key (steps + 1) I.root []).2
    (I.s.mem (merkWalk I.s.mem I.key (steps + 1) I.root []).1) I.s =
    .ok (0, s') ∧
    TreeAt I.K I.root s' (t.insert I.key I.hash) ∧
    s'.Sound I.root handed' ∧ I.handed ⊆ handed' := by
  have hSide : true = !decide (I.key < (I.s.mem I.root).ptr) := by
    rw [hPtr]
    simp
  rw [merkWalk_of_child hSide hSub.rep.ne_zero]
  rcases merkClimb_pending hSub hDepth [I.root] with hNone | ⟨currNode, s', hClimb, hPending⟩
  · exact .inl hNone
  · rcases merkClimb_root hPtr hLeft hSub hPending with
      hNone | ⟨b', below, node, hOk, hSettled, hTree⟩
    · exact .inl (hClimb.trans hNone)
    · right
      rcases hSettled.inv with ⟨handed', hInv, hHanded⟩
      refine ⟨_, handed', hClimb.trans hOk, hTree, ⟨hInv, ?_⟩, hHanded⟩
      rw [MerkleState.write_alloc, hSettled.region.inRegion_iff]
      exact I.root_out

/- The state in which the walk starts. -/
def merkInsertStart (key : Word) (hash : α) (s : MerkleState α) (newNode : Word)
    (alloc : MerkleAlloc) : MerkleState α :=
  ({ s with alloc := alloc }).write newNode { ptr := key, hash := hash, left := 0, right := 0 }

theorem merkInsert_of_alloc {K : NodeHasher α} {newNode : Word} {hash : α} {start : MerkleState α}
    {alloc : MerkleAlloc} (hAlloc : merkAllocNode s.alloc = .ok (newNode, alloc))
    (hStart : start = merkInsertStart key hash s newNode alloc) :
    merkInsert K root key hash s = if (start.mem root).right = 0 then
        .ok (0, start.write root
            { merkHashSingleNode K (start.mem root) none
                (some (start.mem newNode)) with
              right := newNode })
      else
        merkClimb K root newNode (merkWalk start.mem key (merkMaxDepth - 1) root []).1
          (merkWalk start.mem key (merkMaxDepth - 1) root []).2
          (start.mem (merkWalk start.mem key (merkMaxDepth - 1) root []).1)
          start := by
  have hNew : start.mem newNode = { ptr := key, hash := hash, left := 0, right := 0 } := by
    rw [hStart, merkInsertStart, write_mem_self]
  rw [hNew]
  unfold merkInsert
  rw [hAlloc, hStart]
  rfl

/- The call has its new node, and the old ones are as they were. -/
structure Insertion.Starts (I : Insertion α) (s : MerkleState α) (handed : Set Word) : Prop where
  handed_sub : handed ⊆ I.handed
  root_mem : I.s.mem I.root = s.mem I.root
  old : ∀ x, s.alloc.Live x → I.s.mem x = s.mem x ∧ I.s.alloc.Live x ∧ x ≠ I.newNode
  run : merkInsert I.K I.root I.key I.hash s = if (I.s.mem I.root).right = 0 then
        .ok (0, I.s.write I.root
            { merkHashSingleNode I.K (I.s.mem I.root) none
                (some (I.s.mem I.newNode)) with
              right := I.newNode })
      else
        merkClimb I.K I.root I.newNode (merkWalk I.s.mem I.key (merkMaxDepth - 1) I.root []).1
          (merkWalk I.s.mem I.key (merkMaxDepth - 1) I.root []).2
          (I.s.mem (merkWalk I.s.mem I.key (merkMaxDepth - 1) I.root []).1)
          I.s

theorem merkInsert_start (key : Word) (hash : α) (hSound : s.Sound root handed) :
    merkInsert K root key hash s = .error .noBackingPage ∨ ∃ I : Insertion α,
    I.K = K ∧ I.root = root ∧ I.key = key ∧ I.hash = hash ∧ I.Starts s handed := by
  rcases merkAllocNode_spec hSound.inv with hNone | ⟨newNode, alloc, handed', hOk, hInv, hHanded,
      hAlloc⟩
  · left
    unfold merkInsert
    rw [hNone]
    rfl
  · right
    have hNewLive : alloc.Live newNode := (hAlloc.live_iff newNode).mpr (.inr rfl)
    have hRootOut : ¬ alloc.backing.InRegion root := by
      rw [hAlloc.region.inRegion_iff]
      exact hSound.root_out
    let I : Insertion α :=
      { K := K, root := root, key := key, hash := hash
        newNode := newNode
        s := merkInsertStart key hash s newNode alloc
        handed := handed', inv := hInv
        root_out := hRootOut, new_live := hNewLive
        new_mem := write_mem_self }
    refine ⟨I, rfl, rfl, rfl, rfl, hHanded, ?_, ?_, ?_⟩
    · exact write_mem_of_ne (I.newNode_ne_root).symm
    · intro x hLive
      have hNe : x ≠ newNode := by
        rintro rfl
        exact hAlloc.fresh hLive
      exact ⟨write_mem_of_ne hNe, (hAlloc.live_iff x).mpr (.inl hLive), hNe⟩
    · exact merkInsert_of_alloc hOk rfl

theorem Insertion.Starts.subtree (hStarts : I.Starts s handed) (hTree : TreeAt I.K I.root s t) :
    I.Subtree (I.s.mem I.root).right t := by
  have hSame : ∀ x ∈ footprint s.mem (s.mem I.root).right t, I.s.mem x = s.mem x :=
    fun x hMem => (hStarts.old x (hTree.live x hMem)).1
  rcases representsTree_congr hTree.rep hSame with ⟨hRep, hFoot⟩
  rw [hStarts.root_mem]
  refine ⟨hRep, ?_, ?_⟩
  · rw [hFoot]
    exact hTree.nodup
  · rw [hFoot]
    intro x hMem
    exact (hStarts.old x (hTree.live x hMem)).2

/- Insertion into a tree whose search path for the key ends at a leaf in time: it fails for lack of
   a backing page only, and otherwise returns zero and stores the entry. -/
theorem merkInsert_spec {K : NodeHasher α} {hash : α} {t : Option (MerkleTree α)}
    (hSound : s.Sound root handed) (hHolds : HoldsTree K root s t)
    (hDepth : depthOpt key t ≤ merkMaxDepth - 1) :
    merkInsert K root key hash s = .error .noBackingPage ∨ ∃ s' handed',
    merkInsert K root key hash s = .ok (0, s') ∧ TreeAt K root s' (insertOpt key hash t) ∧
    s'.Sound root handed' ∧ handed ⊆ handed' := by
  rcases merkInsert_start K key hash hSound with hNone | ⟨I, rfl, rfl, rfl, rfl, hStarts⟩
  · exact .inl hNone
  rw [hStarts.run]
  cases t with
  | none =>
    right
    have hRight : (I.s.mem I.root).right = 0 := by
      rw [hStarts.root_mem]
      exact hHolds.root_right
    rw [if_pos hRight]
    refine ⟨_, I.handed, rfl, ?_, ⟨I.inv, I.root_out⟩, hStarts.handed_sub⟩
    apply I.treeAt_first
    · exact hStarts.root_mem ▸ hHolds.root_ptr
    · exact hStarts.root_mem ▸ hHolds.root_left
  | some t =>
    have hSub := hStarts.subtree hHolds
    rw [if_neg hSub.rep.ne_zero]
    rcases I.merkClimb_spec (hStarts.root_mem ▸ hHolds.root_ptr)
        (hStarts.root_mem ▸ hHolds.root_left) hSub
        (Nat.le_of_succ_le_succ hDepth) with
      hNone | ⟨s', handed', hDone, hTree, hSound', hHanded⟩
    · exact .inl hNone
    · exact .inr ⟨s', handed', hDone, hTree, hSound', hStarts.handed_sub.trans hHanded⟩

end Keystone
