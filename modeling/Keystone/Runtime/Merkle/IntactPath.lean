import Keystone.Runtime.Merkle.LastWrite

/-
  Insertion into memory in which only the path of the key is known to have the shape of a path.

  Each round of the climb checks a node of the path with its sibling against the parent. If the node
  at the top of the path holds the label of a genuine tree, the checks show that the whole path
  does, and the insertion makes it the path of the tree with the new entry.
-/

----
-- The Climb Writes to Its Path
----

namespace Keystone

open HashTree
open scoped WordOrder
open MerkleState (write_mem_of_ne write_mem_self)

section

variable {α : Type} {K : NodeHasher α} {nodePtr root newNode : Word}

theorem merkRehash_child (nodeIdx hasSibling right : Bool)
    (currNode parent sibling : MerkleNode α) :
    (merkRehash K nodeIdx hasSibling currNode parent sibling).child right = parent.child right := by
  cases nodeIdx <;> cases right <;> rfl

variable {currNode : MerkleNode α} {s : MerkleState α}

theorem merkAttach_of_inner {nodeIdx : Bool} {parent : MerkleNode α}
    (hInner : currNode.isLeaf = false) : merkAttach K newNode nodePtr nodeIdx currNode parent s =
    .ok (nodePtr, currNode, parent, s) := by
  unfold merkAttach
  rw [hInner]
  rfl

variable [DecidableEq α]

theorem MerkStepped.isLeaf_parent {parentPtr nodePtr' : Word} {currNode' parent' : MerkleNode α}
    {s' : MerkleState α}
    (hStepped : MerkStepped K newNode nodePtr parentPtr currNode s nodePtr' currNode' parent' s')
    (hNe : nodePtr' ≠ 0) :
    (merkStepParent K nodePtr parentPtr s currNode' parent').isLeaf = false := by
  have hChild : (merkStepParent K nodePtr parentPtr s currNode' parent').child
      ((s.mem parentPtr).nodeIdx nodePtr) ≠ 0 := by
    unfold merkStepParent
    rw [merkRehash_child, ← hStepped.linked]
    exact hNe
  exact MerkleNode.isLeaf_eq_false_of_child hChild

theorem merkClimb_frame {s' : MerkleState α} {up : List Word} (hInner : currNode.isLeaf = false)
    (hNe : nodePtr ≠ 0) (hUp : ∀ x ∈ up, x ≠ 0)
    (hClimb : merkClimb K root newNode nodePtr (up ++ [root]) currNode s = .ok (0, s')) {x : Word}
    (hNode : x ≠ nodePtr) (hMem : x ∉ up) (hRoot : x ≠ root) : s'.mem x = s.mem x := by
  induction up generalizing nodePtr currNode s with
  | nil =>
    rcases merkClimb_cons_inv hClimb with ⟨_, _, _, _, hStepped, hRest⟩
    have hAttach := hStepped.attach
    rw [merkAttach_of_inner hInner] at hAttach
    cases hAttach
    cases hRest
    rw [write_mem_of_ne hRoot, write_mem_of_ne hNode]
  | cons parent up ih =>
    rcases merkClimb_cons_inv hClimb with ⟨_, _, _, _, hStepped, hRest⟩
    have hAttach := hStepped.attach
    rw [merkAttach_of_inner hInner] at hAttach
    cases hAttach
    rw [List.mem_cons, not_or] at hMem
    have hSame :=
      ih (hStepped.isLeaf_parent hNe) (hUp parent List.mem_cons_self)
        (fun y hY => hUp y (List.mem_cons_of_mem _ hY))
        hRest hMem.1 hMem.2
    rw [hSame, write_mem_of_ne hNode]

end

----
-- Paths to a Leaf
----

variable {α : Type}

/- The search path of a key in any memory, through nodes with two children to a leaf with the digest
   of a page. The list has the nodes below the first one. -/
inductive IntactPath (mem : Word → MerkleNode α) (live : Word → Prop) (pages : Set α) (key : Word) :
    Word → List Word → Prop where
| leaf {a : Word} : live a → (mem a).isLeaf = true → (mem a).hash ∈ pages →
          IntactPath mem live pages key a []
| inner {a : Word} {path : List Word} : live a → (mem a).hasSibling = true →
        IntactPath mem live pages key ((mem a).child (!decide (key < (mem a).ptr))) path →
          IntactPath mem live pages key a ((mem a).child (!decide (key < (mem a).ptr)) :: path)

variable {mem : Word → MerkleNode α} {live : Word → Prop} {pages : Set α} {key : Word}
variable {a : Word} {path : List Word}

theorem MerkleNode.isLeaf_of_hasSibling {node : MerkleNode α} (hSibling : node.hasSibling = true) :
    node.isLeaf = false :=
  isLeaf_eq_false_of_child ((hasSibling_iff true).mp hSibling).1

theorem MerkleNode.eq_of_isLeaf {node : MerkleNode α} (hLeaf : node.isLeaf = true) : node =
      { ptr := node.ptr, hash := node.hash, left := 0, right := 0 } := by
  unfold isLeaf at hLeaf
  rw [Bool.and_eq_true, decide_eq_true_iff, decide_eq_true_iff] at hLeaf
  rcases node with ⟨ptr, hash, left, right⟩
  rcases hLeaf with ⟨rfl, rfl⟩
  rfl

section

variable (hPath : IntactPath mem live pages key a path)
include hPath

theorem IntactPath.head_live : live a := by
  cases hPath with
  | leaf hLive _ _ | inner hLive _ _ => exact hLive

theorem IntactPath.unique {path' : List Word} (hPath' : IntactPath mem live pages key a path') :
    path = path' := by
  induction hPath generalizing path' with
  | leaf _ hLeaf _ =>
    cases hPath' with
    | leaf _ _ _ => rfl
    | inner _ hSibling _ =>
      rw [MerkleNode.isLeaf_of_hasSibling hSibling] at hLeaf
      cases hLeaf
  | inner _ hSibling _ ih =>
    cases hPath' with
    | leaf _ hLeaf _ =>
      rw [MerkleNode.isLeaf_of_hasSibling hSibling] at hLeaf
      cases hLeaf
    | inner _ _ hRest => rw [ih hRest]

theorem IntactPath.exists_of_mem {x : Word} (hMem : x ∈ path) :
    ∃ rest, IntactPath mem live pages key x rest ∧ rest.length < path.length := by
  induction hPath with
  | leaf _ _ _ => cases hMem
  | inner _ _ hRest ih =>
    rcases List.mem_cons.mp hMem with rfl | hBelow
    · exact ⟨_, hRest, Nat.lt_succ_self _⟩
    · rcases ih hBelow with ⟨rest, hPath, hLt⟩
      exact ⟨rest, hPath, Nat.lt_succ_of_lt hLt⟩

theorem IntactPath.not_mem : a ∉ path := by
  intro hMem
  rcases hPath.exists_of_mem hMem with ⟨rest, hRest, hLt⟩
  rw [hPath.unique hRest] at hLt
  exact Nat.lt_irrefl _ hLt

theorem IntactPath.live_of_mem {x : Word} (hMem : x ∈ path) : live x := by
  rcases hPath.exists_of_mem hMem with ⟨rest, hRest, _⟩
  exact hRest.head_live

theorem IntactPath.congr {mem' : Word → MerkleNode α} {live' : Word → Prop}
    (hLive : ∀ x, live x → live' x) (hSame : ∀ x, live x → mem' x = mem x) :
    IntactPath mem' live' pages key a path := by
  induction hPath with
  | leaf hNode hLeaf hPage =>
    refine .leaf (hLive _ hNode) ?_ ?_
    · rw [hSame _ hNode]
      exact hLeaf
    · rw [hSame _ hNode]
      exact hPage
  | inner hNode hSibling _ ih =>
    rw [← hSame _ hNode] at hSibling ih ⊢
    exact .inner (hLive _ hNode) hSibling ih

end

----
-- What the Climb Carries Up
----

namespace Insertion

variable (I : Insertion α)

/- The nodes of the path were there before the call. -/
def OldNode (x : Word) : Prop := I.s.alloc.Live x ∧ x ≠ I.newNode

/- The records that a call finds and leaves are known, and the hash does not collide on them. -/
structure Watched (pages : Set α) (records : Set (Word × α)) (final : MerkleState α) : Prop where
  separates : Separates I.K.sha256 pages records
  start_mem : ∀ x, (I.s.mem x).record ∈ records
  final_mem : ∀ x, (final.mem x).record ∈ records

/- If the node at `b` was the top of a genuine tree, then `currNode` is the top of the tree with the
   new entry. -/
def Authentic (pages : Set α) (records : Set (Word × α)) (b : Word)
    (currNode : MerkleNode α) : Prop :=
  ∀ t : MerkleTree α, Genuine I.K.sha256 pages records t → t.Ordered →
        (I.s.mem b).record = t.label I.K.sha256 → currNode.record =
              (t.insert I.key I.hash).label I.K.sha256 ∧
            ∀ l ∈ (t.insert I.key I.hash).labels I.K.sha256, l = currNode.record ∨ l ∈ records

/- The climb has reached the node at `b`, with the path below it written. -/
inductive Carried (pages : Set α) (records : Set (Word × α)) (b : Word) :
    List Word → MerkleNode α → MerkleState α → Prop where
| leaf : (I.s.mem b).isLeaf = true → Carried pages records b [] (I.s.mem b) I.s
| inner {path : List Word} {currNode : MerkleNode α} {s' : MerkleState α} :
    currNode.isLeaf = false → (∀ x, I.Old x → x ∉ path → s'.mem x = I.s.mem x) →
        I.Authentic pages records b currNode → Carried pages records b path currNode s'

/- After the node was attached and written, at `b'`. -/
structure Relayed (pages : Set α) (records : Set (Word × α)) (b : Word) (path : List Word)
    (b' : Word) (currNode : MerkleNode α) (s' : MerkleState α) : Prop where
  ne_zero : b' ≠ 0
  place : b' = b ∨ ¬ I.Old b'
  frame : ∀ x, I.Old x → x ∉ b :: path → s'.mem x = I.s.mem x
  authentic : I.Authentic pages records b currNode

variable {I} {pages : Set α} {records : Set (Word × α)} {b : Word} {path : List Word}
variable {currNode : MerkleNode α} {s' final : MerkleState α}

variable {x : Word}

theorem OldNode.old (hNode : I.OldNode x) : I.Old x := .inl hNode

theorem OldNode.ne_zero (hNode : I.OldNode x) : x ≠ 0 := (I.inv.live_inRegion hNode.1).2

theorem OldNode.ne_root (hNode : I.OldNode x) : x ≠ I.root := by
  rintro rfl
  exact I.root_out (I.inv.live_inRegion hNode.1).1

theorem Carried.frame (hCarried : I.Carried pages records b path currNode s') (hOld : I.Old x)
    (hOut : x ∉ path) : s'.mem x = I.s.mem x := by
  cases hCarried with
  | leaf _ => rfl
  | inner _ hFrame _ => exact hFrame x hOld hOut

theorem Settled.authentic {leafKey : Word} {digest : α} {b' : Word}
    (hWatched : I.Watched pages records final) (hLeaf : (I.s.mem b).record = (leafKey, digest))
    (hPage : digest ∈ pages) (hSettled : I.Settled b (.leaf leafKey digest) b' s') :
    I.Authentic pages records b (s'.mem b') := by
  intro t hGenuine _ hLabel
  rw [hLeaf] at hLabel
  have hTree : t = .leaf leafKey digest := by
    have hIn : (t.label I.K.sha256).2 ∈ pages := by
      rw [← hLabel]
      exact hPage
    rw [hGenuine.eq_leaf hWatched.separates hIn, ← hLabel]
  subst hTree
  refine ⟨hSettled.rep.record_eq, ?_⟩
  intro l hMem
  rw [hSettled.rep.record_eq]
  rcases mem_labels_insert_leaf hMem with hTop | rfl | rfl
  · exact .inl hTop
  · right
    rw [← hLeaf]
    exact hWatched.start_mem b
  · right
    have hNew := hWatched.start_mem I.newNode
    rw [I.new_mem] at hNew
    exact hNew

variable [DecidableEq α]

theorem Carried.merkAttach_relayed {key : Word} {right : Bool}
    {parent parent' currNode' : MerkleNode α} {b' : Word} {s'' : MerkleState α}
    (hWatched : I.Watched pages records final)
    (hPath : IntactPath I.s.mem I.OldNode pages key b path)
    (hCarried : I.Carried pages records b path currNode s')
    (hAttach : merkAttach I.K I.newNode b right currNode parent s' =
      .ok (b', currNode', parent', s'')) :
    I.Relayed pages records b path b' currNode' (s''.write b' currNode') ∧
    parent'.ptr = parent.ptr := by
  have hNode := hPath.head_live
  cases hCarried with
  | leaf hLeaf =>
    have hPage : (I.s.mem b).hash ∈ pages := by
      cases hPath with
      | leaf _ _ hPage => exact hPage
    have hRep : RepresentsTree I.K I.s.mem b (.leaf (I.s.mem b).ptr (I.s.mem b).hash) := by
      exact ⟨hNode.ne_zero, MerkleNode.eq_of_isLeaf hLeaf⟩
    unfold merkAttach at hAttach
    rw [if_pos hLeaf] at hAttach
    rcases I.merkSpliceNode_settled hRep hNode.1 hNode.2 with hNone | ⟨b₁, s₁, hOk, hSettled⟩
    · rw [hNone] at hAttach
      cases hAttach
    · rw [hOk] at hAttach
      cases hAttach
      refine ⟨?_, MerkleNode.setChild_ptr _ _ _⟩
      rw [MerkleState.write_self]
      have hOwn := hSettled.own b' mem_footprint_self
      exact
        { ne_zero := hSettled.rep.ne_zero
          place := hOwn.2.imp List.mem_singleton.mp id
          frame := hSettled.frame
          authentic :=
            hSettled.authentic hWatched rfl hPage }
  | inner hInner hFrame hAuthentic =>
    rw [merkAttach_of_inner hInner] at hAttach
    cases hAttach
    refine ⟨⟨hNode.ne_zero, .inl rfl, ?_, hAuthentic⟩, rfl⟩
    intro x hOld hOut
    rw [List.mem_cons, not_or] at hOut
    rw [write_mem_of_ne hOut.1]
    exact hFrame x hOld hOut.2

/- All records in the middle of a climb are known: what was written stays, and what will be written
   was there before. -/
theorem Carried.record_mem {up : List Word} (hWatched : I.Watched pages records final)
    (hNode : I.OldNode b) (hBelow : b ∉ path) (hUp : ∀ x ∈ up, I.OldNode x ∧ x ∉ path)
    (hRootOut : I.root ∉ path) (hCarried : I.Carried pages records b path currNode s')
    (hClimb : merkClimb I.K I.root I.newNode b (up ++ [I.root]) currNode s' = .ok (0, final))
    (x : Word) : (s'.mem x).record ∈ records := by
  have hStart : I.Old x → x ∉ path → (s'.mem x).record ∈ records := by
    intro hOld hOut
    rw [hCarried.frame hOld hOut]
    exact hWatched.start_mem x
  by_cases hB : x = b
  · subst hB
    exact hStart hNode.old hBelow
  by_cases hMem : x ∈ up
  · exact hStart (hUp x hMem).1.old (hUp x hMem).2
  by_cases hRoot : x = I.root
  · subst hRoot
    exact hStart (.inr rfl) hRootOut
  cases hCarried with
  | leaf _ => exact hWatched.start_mem x
  | inner hInner _ _ =>
    rw [← merkClimb_frame hInner hNode.ne_zero (fun y hY => (hUp y hY).1.ne_zero) hClimb hB hMem
      hRoot]
    exact hWatched.final_mem x

end Insertion

----
-- The Climb on an Intact Path
----

variable {a : Word} {right : Bool} {up : List Word}

namespace Insertion

variable [DecidableEq α] {I : Insertion α} {pages : Set α} {records : Set (Word × α)}
variable {path : List Word} {currNode : MerkleNode α} {s' final : MerkleState α}

section

variable (hWatched : I.Watched pages records final)
include hWatched

/- A round on the path. The check ties the record of the child and that of its sibling to the
   parent, and the new hash is made of the same sibling. -/
theorem authentic_parent {b' : Word} {currNode' parent' : MerkleNode α} {s'' : MerkleState α}
    (hSide : right = !decide (I.key < (I.s.mem a).ptr)) (hSibling : (I.s.mem a).hasSibling = true)
    (hA : s'.mem a = I.s.mem a)
    (hB : s'.mem ((I.s.mem a).child right) = I.s.mem ((I.s.mem a).child right))
    (hKnown : ∀ x, (s'.mem x).record ∈ records)
    (hStepped : MerkStepped I.K I.newNode ((I.s.mem a).child right) a
      currNode s' b' currNode' parent' s'') (hPtr : parent'.ptr = (I.s.mem a).ptr)
    (hAuthentic : I.Authentic pages records ((I.s.mem a).child right) currNode')
    (hWritten : currNode'.record ∈ records) :
    I.Authentic pages records a (merkStepParent I.K ((I.s.mem a).child right) a s'
      currNode' parent') := by
  intro t hGenuine hOrdered hLabel
  have hCheck := hStepped.check
  rw [hA] at hCheck
  have hCheck := merkSiblingOk_iff.mp (hCheck hSibling)
  unfold merkStepParent
  rw [hA, hSibling, merkRehash_of_sibling]
  generalize hIdx : (I.s.mem a).nodeIdx ((I.s.mem a).child right) = idx at *
  have hHash : (I.s.mem a).hash = (t.label I.K.sha256).2 := congrArg Prod.snd hLabel
  have hSplit : (I.s.mem a).ptr = (t.label I.K.sha256).1 := congrArg Prod.fst hLabel
  rw [hHash] at hCheck
  rcases hGenuine.eq_join hWatched.separates (hKnown _) (hKnown _) hCheck with
    ⟨near, far, hTree, hNear, hFar⟩
  rw [← hSplit] at hTree
  subst hTree
  -- one child on both sides would have to hold two trees
  have hIdx : idx = right := by
    cases right
    · by_contra hNe
      have hTrue : idx = true := by
        simpa using hNe
      subst hTrue
      exact hOrdered.label_ne_join hGenuine hWatched.separates (hNear.symm.trans hFar)
    · exact hIdx.symm.trans (decide_eq_true rfl)
  subst hIdx
  rcases hGenuine.of_join with ⟨hGenuineNear, hGenuineFar⟩
  rw [hB] at hNear
  rcases hAuthentic near hGenuineNear hOrdered.of_join hNear with ⟨hRecord, hLabels⟩
  have hTop : MerkleNode.record
          { parent' with
            hash :=
              I.K.sha256
                (sides idx currNode'.record
                  (s'.mem ((I.s.mem a).child
                    (!idx))).record) } =
        ((join idx (I.s.mem a).ptr near far).insert I.key I.hash).label I.K.sha256 := by
    rw [insert_join hSide, label_join, ← hRecord, hFar, ← hPtr]
    rfl
  refine ⟨hTop, ?_⟩
  intro l hMem
  rw [hTop]
  rw [insert_join hSide] at hMem ⊢
  rcases mem_labels_join hMem with hHead | hIn | hIn
  · exact .inl hHead
  · right
    rcases hLabels l hIn with rfl | hOther
    · exact hWritten
    · exact hOther
  · exact .inr (hGenuineFar.labels_mem l hIn)

/- One round of the climb, from a node of the path to the one above it. -/
theorem Carried.step (hSide : right = !decide (I.key < (I.s.mem a).ptr)) (hNode : I.OldNode a)
    (hSibling : (I.s.mem a).hasSibling = true)
    (hPath : IntactPath I.s.mem I.OldNode pages I.key ((I.s.mem a).child right) path)
    (hOut : a ∉ (I.s.mem a).child right :: path)
    (hUp : ∀ x ∈ up, I.OldNode x ∧ x ∉ a :: (I.s.mem a).child right :: path)
    (hCarried : I.Carried pages records ((I.s.mem a).child right) path currNode s')
    (hClimb : merkClimb I.K I.root I.newNode ((I.s.mem a).child right) (a :: (up ++ [I.root]))
      currNode s' = .ok (0, final)) :
    ∃ currNode' s'', merkClimb I.K I.root I.newNode a (up ++ [I.root])
    currNode' s'' = .ok (0, final) ∧
    I.Carried pages records a ((I.s.mem a).child right :: path) currNode'
    s'' := by
  generalize hChild : (I.s.mem a).child right = b at *
  have hB : I.OldNode b := hPath.head_live
  rw [List.mem_cons, not_or] at hOut
  have hRootOut : I.root ∉ path := fun hMem => (hPath.live_of_mem hMem).ne_root rfl
  have hUp' : ∀ x ∈ a :: up, I.OldNode x ∧ x ∉ path := by
    intro x hMem
    rcases List.mem_cons.mp hMem with rfl | hAbove
    · exact ⟨hNode, hOut.2⟩
    · refine ⟨(hUp x hAbove).1, ?_⟩
      intro hIn
      exact (hUp x hAbove).2 (List.mem_cons_of_mem _ (List.mem_cons_of_mem _ hIn))
  have hKnown := hCarried.record_mem hWatched hB hPath.not_mem hUp' hRootOut hClimb
  rcases merkClimb_cons_inv hClimb with ⟨b', currNode', parent', s'', hStepped, hRest⟩
  have hA : s'.mem a = I.s.mem a := hCarried.frame hNode.old hOut.2
  rcases hCarried.merkAttach_relayed hWatched hPath hStepped.attach with ⟨hRelayed, hPtr⟩
  rw [hA] at hPtr
  have hInner := hStepped.isLeaf_parent hRelayed.ne_zero
  refine ⟨_, _, hRest, .inner hInner hRelayed.frame ?_⟩
  have hWritten : currNode'.record ∈ records := by
    have hApart : ∀ x, I.Old x → x ≠ b → b' ≠ x := by
      rintro x hOld hNe rfl
      rcases hRelayed.place with hSame | hNew
      · exact hNe hSame
      · exact hNew hOld
    have hStays : final.mem b' = currNode' := by
      rw [merkClimb_frame hInner hNode.ne_zero (fun x hX => (hUp x hX).1.ne_zero) hRest,
        write_mem_self]
      · exact hApart a hNode.old hOut.1
      · intro hMem
        refine hApart b' (hUp b' hMem).1.old ?_ rfl
        rintro rfl
        exact (hUp b' hMem).2 (List.mem_cons_of_mem _ List.mem_cons_self)
      · exact hApart I.root (.inr rfl) hB.ne_root.symm
    rw [← hStays]
    exact hWatched.final_mem b'
  subst hChild
  exact authentic_parent hWatched hSide hSibling hA
    (hCarried.frame hB.old hPath.not_mem) hKnown hStepped
    hPtr hRelayed.authentic hWritten

/- From the end of the walk back to the node at which the path starts. The induction is on the path.
   -/
theorem merkClimb_carried (hPath : IntactPath I.s.mem I.OldNode pages I.key a path)
    (hUp : ∀ x ∈ up, I.OldNode x ∧ x ∉ a :: path) {steps : Nat} (hSteps : path.length ≤ steps)
    (hClimb : merkClimb I.K I.root I.newNode (merkWalk I.s.mem I.key steps a (up ++ [I.root])).1
      (merkWalk I.s.mem I.key steps a (up ++ [I.root])).2
      (I.s.mem (merkWalk I.s.mem I.key steps a (up ++ [I.root])).1)
      I.s = .ok (0, final)) :
    ∃ currNode s', merkClimb I.K I.root I.newNode a (up ++ [I.root]) currNode s' = .ok (0, final) ∧
    I.Carried pages records a path currNode s' := by
  induction hPath generalizing up steps with
  | leaf hNode hLeaf hPage =>
    rw [merkWalk_of_isLeaf hLeaf] at hClimb
    exact ⟨_, _, hClimb, .leaf hLeaf⟩
  | @inner a path hNode hSibling hRest ih =>
    have hOut := (IntactPath.inner hNode hSibling hRest).not_mem
    cases steps with
    | zero => cases hSteps
    | succ steps =>
      rw [merkWalk_of_child rfl hRest.head_live.ne_zero] at hClimb
      have hUp' : ∀ x ∈ a :: up, I.OldNode x ∧ x ∉ (I.s.mem a).child
          (!decide (I.key < (I.s.mem a).ptr)) ::
          path := by
        intro x hMem
        rcases List.mem_cons.mp hMem with rfl | hAbove
        · exact ⟨hNode, hOut⟩
        · refine ⟨(hUp x hAbove).1, ?_⟩
          intro hIn
          exact (hUp x hAbove).2 (List.mem_cons_of_mem _ hIn)
      rcases ih hUp' (Nat.le_of_succ_le_succ hSteps) hClimb with ⟨currNode, s', hBelow, hCarried⟩
      exact hCarried.step hWatched rfl hNode hSibling hRest hOut hUp hBelow

theorem Carried.root (hPath : IntactPath I.s.mem I.OldNode pages I.key (I.s.mem I.root).right path)
    (hCarried : I.Carried pages records (I.s.mem I.root).right path currNode s')
    (hClimb : merkClimb I.K I.root I.newNode (I.s.mem I.root).right
      [I.root] currNode s' = .ok (0, final)) :
    I.Authentic pages records (I.s.mem I.root).right (final.mem (final.mem I.root).right) := by
  have hNode := hPath.head_live
  have hRootOut : I.root ∉ path := fun hMem => (hPath.live_of_mem hMem).ne_root rfl
  have hRoot : s'.mem I.root = I.s.mem I.root := hCarried.frame (.inr rfl) hRootOut
  have hIdx : (I.s.mem I.root).nodeIdx (I.s.mem I.root).right =
      true :=
    decide_eq_true rfl
  rcases merkClimb_cons_inv hClimb with ⟨b', currNode', parent', s'', hStepped, hRest⟩
  rcases hCarried.merkAttach_relayed hWatched hPath hStepped.attach with ⟨hRelayed, _⟩
  have hLinked := hStepped.linked
  rw [hRoot, hIdx] at hLinked
  have hNe : b' ≠ I.root := by
    rintro rfl
    rcases hRelayed.place with hSame | hNew
    · exact hNode.ne_root hSame.symm
    · exact hNew (.inr rfl)
  cases hRest
  have hRight : (merkStepParent I.K (I.s.mem I.root).right I.root s'
      currNode' parent').right = b' := by
    have hKept :=
      merkRehash_child (K := I.K) true (s'.mem I.root).hasSibling true currNode' parent'
        (s'.mem ((s'.mem I.root).child (!true)))
    rw [← hLinked] at hKept
    unfold merkStepParent
    rw [hRoot, hIdx, ← hRoot]
    exact hKept
  rw [write_mem_self, hRight, write_mem_of_ne hNe,
    write_mem_self]
  exact hRelayed.authentic

end

end Insertion

end Keystone
