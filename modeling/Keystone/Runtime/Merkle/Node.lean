import Keystone.Lib.HashTree
import Keystone.Runtime.Merkle.Alloc

/-
  The Merkle tree of the runtime, `merkle.c`.

  Nodes live in memory that may be outside of the enclave; only the root node is in trusted memory.
  A node holds a pointer that serves as its key, a hash and two children. Messages of SHA-256 are
  the records of the children: the key and the hash of each of them.
-/

----
-- Nodes and Verification
----

namespace Keystone

/- `merkle_node_t`. -/
structure MerkleNode (α : Type) where
  ptr : Word
  hash : α
  left : Word
  right : Word
deriving DecidableEq

/- SHA-256 on the records of a node's children, and the hash of 32 zero bytes that an initializer
   leaves. -/
structure NodeHasher (α : Type) where
  sha256 : List (Word × α) → α
  zeros : α

namespace MerkleNode

variable {α : Type}

/- What goes into the hash of the parent. -/
def record (node : MerkleNode α) : Word × α := (node.ptr, node.hash)

/- A node without children. -/
def isLeaf (node : MerkleNode α) : Bool := node.left = 0 && node.right = 0

/- Both children exist. -/
def hasSibling (parent : MerkleNode α) : Bool := parent.left ≠ 0 && parent.right ≠ 0

/- On which side of its parent a node is. -/
def nodeIdx (parent : MerkleNode α) (nodePtr : Word) : Bool := parent.right = nodePtr

/- `children[1]` is the right child. -/
def child (node : MerkleNode α) (right : Bool) : Word := if right then node.right else node.left

def setChild (node : MerkleNode α) (right : Bool) (ptr : Word) : MerkleNode α :=
  if right then
    { node with right := ptr }
  else
    { node with left := ptr }

end MerkleNode

/- The children that exist, left before right. -/
def childRecords {α : Type} (left right : Option (MerkleNode α)) : List (Word × α) :=
  (left.toList ++ right.toList).map MerkleNode.record

variable {α : Type} [DecidableEq α]

def merkVerifySingleNode (K : NodeHasher α) (node : MerkleNode α)
    (left right : Option (MerkleNode α)) : Bool :=
  if left.isNone && right.isNone then
    true
  else
    K.sha256 (childRecords left right) = node.hash

def merkHashSingleNode (K : NodeHasher α) (node : MerkleNode α)
    (left right : Option (MerkleNode α)) : MerkleNode α :=
  { node with hash := K.sha256 (childRecords left right) }

/- The loop of `merk_verify`. A child that does not exist is not loaded, so that its variable keeps
   what it held. The bound on the number of rounds is the first argument. -/
def merkVerifyLoop (K : NodeHasher α) (mem : Word → MerkleNode α) (key : Word) (hash : α) :
    Nat → MerkleNode α → MerkleNode α → MerkleNode α → Option Bool
| 0, _, _, _ => none
| rounds + 1, node, left, right =>
  if node.isLeaf then
    some (hash = node.hash)
  else
    let left := if node.left ≠ 0 then mem node.left else left
    let right := if node.right ≠ 0 then mem node.right else right
    if !merkVerifySingleNode K node (if node.left ≠ 0 then some left else none)
        (if node.right ≠ 0 then some right else none) then
      some false
    else if key < node.ptr then
      merkVerifyLoop K mem key hash rounds left left right
    else
      merkVerifyLoop K mem key hash rounds right left right

/- The variable `left` is not initialized. -/
def merkVerify (K : NodeHasher α) (mem : Word → MerkleNode α) (root key : Word) (hash : α)
    (uninit : MerkleNode α) (rounds : Nat) : Option Bool :=
  let node := mem root
  if node.right = 0 then
    some false
  else
    let right := mem node.right
    if !merkVerifySingleNode K node none (some right) then
      some false
    else
      merkVerifyLoop K mem key hash rounds right uninit right

----
-- Insertion
----

variable {α : Type} [DecidableEq α]

/- The memory of the nodes and the allocator. -/
structure MerkleState (α : Type) where
  mem : Word → MerkleNode α
  alloc : MerkleAlloc

def MerkleState.write (s : MerkleState α) (ptr : Word) (node : MerkleNode α) : MerkleState α :=
  { s with mem := Function.update s.mem ptr node }

/- The new parent is written first and hashed in place. -/
def merkSpliceNode (K : NodeHasher α) (leaf node : Word) (s : MerkleState α) :
    Except RuntimeFault (Word × MerkleState α) := do
  if (s.mem node).ptr = (s.mem leaf).ptr then
    let alloc ← merkFreeNode s.alloc leaf
    return (node, { s with alloc := alloc })
  let (newParent, alloc) ← merkAllocNode s.alloc
  let s := { s with alloc := alloc }
  if (s.mem node).ptr < (s.mem leaf).ptr then
    let s :=
      s.write newParent { ptr := (s.mem leaf).ptr, hash := K.zeros, left := node, right := leaf }
    return (newParent, s.write newParent (merkHashSingleNode K (s.mem newParent)
          (some (s.mem node)) (some (s.mem leaf))))
  else
    let s :=
      s.write newParent { ptr := (s.mem node).ptr, hash := K.zeros, left := leaf, right := node }
    return (newParent, s.write newParent (merkHashSingleNode K (s.mem newParent)
          (some (s.mem leaf)) (some (s.mem node))))

/- `MERK_MAX_DEPTH`. -/
def merkMaxDepth : Nat := 32

/- The walk down the tree. It returns the node at which it ends and `intermediate_nodes` above it,
   the parent first. -/
def merkWalk (mem : Word → MerkleNode α) (key : Word) : Nat → Word → List Word → Word × List Word
| 0, node, above => (node, above)
| steps + 1, node, above =>
  let traverseLeft := key < (mem node).ptr
  let child := (mem node).child (!traverseLeft)
  if child = 0 then
    (node, above)
  else
    merkWalk mem key steps child (node :: above)

/- At the leaf, the new node is spliced in below its parent. -/
def merkAttach (K : NodeHasher α) (newNode nodePtr : Word) (nodeIdx : Bool)
    (currNode parent : MerkleNode α) (s : MerkleState α) :
    Except RuntimeFault (Word × MerkleNode α × MerkleNode α × MerkleState α) := do
  if currNode.isLeaf then
    let (nodePtr, s) ← merkSpliceNode K nodePtr newNode s
    return (nodePtr, s.mem nodePtr, parent.setChild nodeIdx nodePtr, s)
  else
    return (nodePtr, currNode, parent, s)

/- The check of the node in memory and of its sibling against their parent. -/
def merkSiblingOk (K : NodeHasher α) (nodePtr : Word) (nodeIdx : Bool) (parent : MerkleNode α)
    (s : MerkleState α) : Bool :=
  let node := s.mem nodePtr
  let sibling := s.mem (parent.child (!nodeIdx))
  if nodeIdx then
    merkVerifySingleNode K parent (some sibling) (some node)
  else
    merkVerifySingleNode K parent (some node) (some sibling)

/- The hash of the parent from the saved node and the sibling. -/
def merkRehash (K : NodeHasher α) (nodeIdx hasSibling : Bool)
    (currNode parent sibling : MerkleNode α) : MerkleNode α :=
  let other := if hasSibling then some sibling else none
  if nodeIdx then
    merkHashSingleNode K parent other (some currNode)
  else
    merkHashSingleNode K parent (some currNode) other

/- The way back up, from the node at `nodePtr` through its ancestors. The result is `-1` if a check
   fails. -/
def merkClimb (K : NodeHasher α) (root newNode : Word) :
    Word → List Word → MerkleNode α → MerkleState α → Except RuntimeFault (Int × MerkleState α)
| _, [], currNode, s => .ok (0, s.write root currNode)
| nodePtr, parentPtr :: above, currNode, s => do
    let parent := s.mem parentPtr
    let hasSibling := parent.hasSibling
    let nodeIdx := parent.nodeIdx nodePtr
    let sibling := s.mem (parent.child (!nodeIdx))
    if hasSibling && !merkSiblingOk K nodePtr nodeIdx parent s then
      return (-1, s)
    let (nodePtr, currNode, parent, s) ← merkAttach K newNode nodePtr nodeIdx currNode parent s
    runtimeAssert (nodePtr = parent.child nodeIdx)
    let parent := merkRehash K nodeIdx hasSibling currNode parent sibling
    merkClimb K root newNode parentPtr above parent (s.write nodePtr currNode)

/- The root gets the first node as its right child. The walk ends before `i` can reach
   `MERK_MAX_DEPTH`, so the check of the depth behind it never fails. -/
def merkInsert (K : NodeHasher α) (root key : Word) (hash : α) (s : MerkleState α) :
    Except RuntimeFault (Int × MerkleState α) := do
  let newNodeData : MerkleNode α := { ptr := key, hash := hash, left := 0, right := 0 }
  let (newNode, alloc) ← merkAllocNode s.alloc
  let s := { s with alloc := alloc }.write newNode newNodeData
  if (s.mem root).right = 0 then
    let hashed := merkHashSingleNode K (s.mem root) none (some newNodeData)
    return (0, s.write root { hashed with right := newNode })
  let (last, above) := merkWalk s.mem key (merkMaxDepth - 1) root []
  merkClimb K root newNode last above (s.mem last) s

----
-- Children and Writes
----

namespace MerkleNode

variable {α : Type}

@[simp] theorem child_setChild (node : MerkleNode α) (right : Bool) (ptr : Word) :
    (node.setChild right ptr).child right = ptr := by
  cases right <;> rfl

@[simp] theorem setChild_child (node : MerkleNode α) (right : Bool) :
    node.setChild right (node.child right) = node := by
  cases right <;> rfl

@[simp] theorem setChild_ptr (node : MerkleNode α) (right : Bool) (ptr : Word) :
    (node.setChild right ptr).ptr = node.ptr := by
  cases right <;> rfl

theorem isLeaf_eq_false_of_child {node : MerkleNode α} {right : Bool}
    (hChild : node.child right ≠ 0) : node.isLeaf = false := by
  cases right
  · have hLeft : ¬ node.left = 0#64 := hChild
    simp [MerkleNode.isLeaf, hLeft]
  · have hRight : ¬ node.right = 0#64 := hChild
    simp [MerkleNode.isLeaf, hRight]

theorem hasSibling_iff {node : MerkleNode α} (right : Bool) : node.hasSibling = true ↔
    node.child right ≠ 0 ∧ node.child (!right) ≠ 0 := by
  unfold hasSibling
  rw [Bool.and_eq_true, decide_eq_true_iff, decide_eq_true_iff]
  cases right
  · exact Iff.rfl
  · exact and_comm

end MerkleNode

namespace MerkleState

variable {α : Type} {s : MerkleState α} {ptr x : Word} {node : MerkleNode α}

@[simp] theorem write_alloc : (s.write ptr node).alloc = s.alloc := rfl

@[simp] theorem write_mem_self : (s.write ptr node).mem ptr = node := by
  simp [write]

theorem write_mem_of_ne (hNe : x ≠ ptr) : (s.write ptr node).mem x = s.mem x := by
  simp [write, hNe]

@[simp] theorem write_self : s.write ptr (s.mem ptr) = s := by
  simp [write]

end MerkleState

section Walk

variable {α : Type} {mem : Word → MerkleNode α} {key node : Word}

theorem merkWalk_of_isLeaf (hLeaf : (mem node).isLeaf = true) (steps : Nat) (above : List Word) :
    merkWalk mem key steps node above = (node, above) := by
  cases steps with
  | zero => rfl
  | succ steps =>
    have hChild : ∀ right, (mem node).child right = 0 := by
      intro right
      unfold MerkleNode.isLeaf at hLeaf
      rw [Bool.and_eq_true, decide_eq_true_iff, decide_eq_true_iff] at hLeaf
      cases right
      · exact hLeaf.1
      · exact hLeaf.2
    simp only [merkWalk, hChild, if_true]

theorem merkWalk_of_child {right : Bool} (hSide : right = !decide (key < (mem node).ptr))
    (hChild : (mem node).child right ≠ 0) (steps : Nat) (above : List Word) :
    merkWalk mem key (steps + 1) node above = merkWalk mem key steps ((mem node).child right)
    (node :: above) := by
  subst hSide
  simp only [merkWalk, hChild, if_false]

end Walk

theorem merkSiblingOk_iff {α : Type} [DecidableEq α] {K : NodeHasher α} {nodePtr : Word}
    {right : Bool} {parent : MerkleNode α} {s : MerkleState α} :
    merkSiblingOk K nodePtr right parent s = true ↔ K.sha256
    (HashTree.sides right (s.mem nodePtr).record (s.mem (parent.child (!right))).record) =
    parent.hash := by
  cases right <;> simp [merkSiblingOk, merkVerifySingleNode, childRecords, HashTree.sides]

theorem merkRehash_of_sibling {α : Type} (K : NodeHasher α) (right : Bool)
    (currNode parent sibling : MerkleNode α) : merkRehash K right true currNode parent sibling =
      { parent with hash := K.sha256 (HashTree.sides right currNode.record sibling.record) } := by
  cases right <;> rfl

----
-- One Round of the Climb
----

variable {α : Type} [DecidableEq α] {K : NodeHasher α} {root newNode : Word}
variable {nodePtr parentPtr : Word} {above : List Word}
variable {currNode : MerkleNode α} {s : MerkleState α}

/- What a round has done when it goes on. -/
structure MerkStepped (K : NodeHasher α) (newNode nodePtr parentPtr : Word)
    (currNode : MerkleNode α) (s : MerkleState α) (nodePtr' : Word)
    (currNode' parent' : MerkleNode α) (s' : MerkleState α) : Prop where
  check : (s.mem parentPtr).hasSibling = true → merkSiblingOk K nodePtr
        ((s.mem parentPtr).nodeIdx nodePtr)
        (s.mem parentPtr) s = true
  attach : merkAttach K newNode nodePtr ((s.mem parentPtr).nodeIdx nodePtr) currNode
        (s.mem parentPtr) s =
      .ok (nodePtr', currNode', parent', s')
  linked : nodePtr' = parent'.child ((s.mem parentPtr).nodeIdx nodePtr)

/- The parent that such a round leaves to be written. -/
def merkStepParent (K : NodeHasher α) (nodePtr parentPtr : Word) (s : MerkleState α)
    (currNode' parent' : MerkleNode α) : MerkleNode α :=
  merkRehash K ((s.mem parentPtr).nodeIdx nodePtr) (s.mem parentPtr).hasSibling currNode' parent'
    (s.mem ((s.mem parentPtr).child (!(s.mem parentPtr).nodeIdx nodePtr)))

theorem merkClimb_of_stepped {nodePtr' : Word} {currNode' parent' : MerkleNode α}
    {s' : MerkleState α}
    (hStepped : MerkStepped K newNode nodePtr parentPtr currNode s nodePtr' currNode' parent' s') :
    merkClimb K root newNode nodePtr (parentPtr :: above) currNode s =
    merkClimb K root newNode parentPtr above (merkStepParent K nodePtr parentPtr s currNode'
      parent')
    (s'.write nodePtr' currNode') := by
  have hCheck : ((s.mem parentPtr).hasSibling && !merkSiblingOk K nodePtr
      ((s.mem parentPtr).nodeIdx nodePtr)
      (s.mem parentPtr) s) = false := by
    cases hSibling : (s.mem parentPtr).hasSibling with
    | false => rfl
    | true => simp [hStepped.check hSibling]
  have hLinked := hStepped.linked
  rw [merkClimb]
  simp only [hCheck, Bool.false_eq_true, if_false,
    hStepped.attach, bind, Except.bind, runtimeAssert,
    ← hLinked, decide_true, if_true, merkStepParent]

theorem merkClimb_of_attach_error {fault : RuntimeFault}
    (hCheck : (s.mem parentPtr).hasSibling = true → merkSiblingOk K nodePtr
      ((s.mem parentPtr).nodeIdx nodePtr)
      (s.mem parentPtr) s = true)
    (hAttach : merkAttach K newNode nodePtr ((s.mem parentPtr).nodeIdx nodePtr) currNode
      (s.mem parentPtr) s = .error fault) :
    merkClimb K root newNode nodePtr (parentPtr :: above) currNode s = .error fault := by
  have hCheck : ((s.mem parentPtr).hasSibling && !merkSiblingOk K nodePtr
      ((s.mem parentPtr).nodeIdx nodePtr)
      (s.mem parentPtr) s) = false := by
    cases hSibling : (s.mem parentPtr).hasSibling with
    | false => rfl
    | true => simp [hCheck hSibling]
  rw [merkClimb]
  simp only [hCheck, Bool.false_eq_true, if_false, hAttach, bind, Except.bind]

theorem merkClimb_cons_inv {s'' : MerkleState α}
    (hClimb : merkClimb K root newNode nodePtr (parentPtr :: above) currNode s = .ok (0, s'')) :
    ∃ nodePtr' currNode' parent' s', MerkStepped K newNode nodePtr parentPtr currNode s
    nodePtr' currNode' parent' s' ∧
    merkClimb K root newNode parentPtr above (merkStepParent K nodePtr parentPtr s currNode'
      parent')
    (s'.write nodePtr' currNode') = .ok (0, s'') := by
  rw [merkClimb] at hClimb
  simp only [bind, Except.bind, runtimeAssert] at hClimb
  split at hClimb
  · injection hClimb with hPair
    injection hPair with hCode
    cases hCode
  · rename_i hCheck
    split at hClimb
    · cases hClimb
    · rename_i attached hAttach
      rcases attached with ⟨nodePtr', currNode', parent', s'⟩
      split at hClimb
      · cases hClimb
      · rename_i hAssert
        refine ⟨nodePtr', currNode', parent', s', ⟨?_, hAttach, ?_⟩, hClimb⟩
        · intro hSibling
          simpa [hSibling] using hCheck
        · by_contra hNe
          rw [decide_eq_false hNe] at hAssert
          cases hAssert

end Keystone
