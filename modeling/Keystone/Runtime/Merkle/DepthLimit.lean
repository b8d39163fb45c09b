import Keystone.Runtime.Merkle.Demand
import Keystone.Runtime.Merkle.IntactPath

/-
  Insertions of any keys in any order.

  The walk of `merk_insert` stops after `MERK_MAX_DEPTH - 1` steps, and the check of the depth
  behind it compares with `MERK_MAX_DEPTH`. If the search for the key goes deeper, the climb starts
  at an inner node: it rehashes what is there, nothing is spliced in, and the result is zero.

  `merk_verify` compares the hash with the one at the leaf where the search ends. It does not
  compare the key.
-/

----
-- A Climb From An Inner Node
----

namespace Keystone

open HashTree
open scoped WordOrder

namespace Insertion

variable {α : Type} [DecidableEq α] {I : Insertion α} {t : MerkleTree α}

theorem merkClimb_inner_step {a split : Word} {right : Bool} {far : MerkleTree α}
    (above : List Word) (hSub : I.Subtree a (join right split t far))
    (hInner : (I.s.mem ((I.s.mem a).child right)).isLeaf = false) :
    merkClimb I.K I.root I.newNode ((I.s.mem a).child right)
    (a :: above) (I.s.mem ((I.s.mem a).child right))
    I.s =
    merkClimb I.K I.root I.newNode a above (I.s.mem a)
    I.s := by
  rcases representsTree_join_iff.mp hSub.rep with ⟨_, _, hHash, _, _⟩
  have hStepped : MerkStepped I.K I.newNode ((I.s.mem a).child right) a
      (I.s.mem ((I.s.mem a).child right)) I.s
      ((I.s.mem a).child right)
      (I.s.mem ((I.s.mem a).child right)) (I.s.mem a)
      I.s := by
    refine ⟨?_, merkAttach_of_inner hInner, ?_⟩
    · intro _
      rw [hSub.nodeIdx_eq]
      exact hSub.merkSiblingOk_eq rfl rfl
    · rw [hSub.nodeIdx_eq]
  rw [merkClimb_of_stepped hStepped, MerkleState.write_self]
  unfold merkStepParent
  rw [hSub.nodeIdx_eq, hSub.hasSibling_eq, merkRehash_of_sibling, ← hHash]

/- The walk that is too short ends at an inner node, and the climb brings nothing back. -/
theorem merkClimb_inner {a : Word} {steps : Nat} (hSub : I.Subtree a t)
    (hDeep : steps < t.depth I.key) (above : List Word) :
    (I.s.mem a).isLeaf = false ∧ merkClimb I.K I.root I.newNode
    (merkWalk I.s.mem I.key steps a above).1
    (merkWalk I.s.mem I.key steps a above).2
    (I.s.mem (merkWalk I.s.mem I.key steps a above).1)
    I.s =
    merkClimb I.K I.root I.newNode a above (I.s.mem a)
    I.s := by
  induction t using induction_join (k := I.key) generalizing a steps above with
  | leaf key digest => exact absurd hDeep (Nat.not_lt_zero _)
  | join right split near far hSide ih =>
    rcases representsTree_join_iff.mp hSub.rep with ⟨_, hPtr, _, hNear, _⟩
    refine ⟨MerkleNode.isLeaf_eq_false_of_child hNear.ne_zero, ?_⟩
    rw [depth_join hSide] at hDeep
    cases steps with
    | zero => rfl
    | succ steps =>
      have hSide' : right = !decide (I.key < (I.s.mem a).ptr) := by
        rw [hPtr]
        exact hSide
      rcases ih hSub.near (Nat.lt_of_succ_lt_succ hDeep) (a :: above) with ⟨hInner, hClimb⟩
      rw [merkWalk_of_child hSide' hNear.ne_zero, hClimb]
      exact merkClimb_inner_step above hSub hInner

theorem merkClimb_inner_root (hPtr : (I.s.mem I.root).left = 0)
    (hHash : (I.s.mem I.root).hash = I.K.sha256 [(I.s.mem (I.s.mem I.root).right).record])
    (hInner : (I.s.mem (I.s.mem I.root).right).isLeaf = false) :
    merkClimb I.K I.root I.newNode (I.s.mem I.root).right
    [I.root] (I.s.mem (I.s.mem I.root).right) I.s =
    .ok (0, I.s) := by
  have hSibling : (I.s.mem I.root).hasSibling = false := by
    unfold MerkleNode.hasSibling
    rw [hPtr]
    rfl
  have hIdx : (I.s.mem I.root).nodeIdx (I.s.mem I.root).right =
      true :=
    decide_eq_true rfl
  have hStepped : MerkStepped I.K I.newNode (I.s.mem I.root).right
      I.root (I.s.mem (I.s.mem I.root).right) I.s
      (I.s.mem I.root).right
      (I.s.mem (I.s.mem I.root).right) (I.s.mem I.root)
      I.s := by
    refine ⟨?_, merkAttach_of_inner hInner, ?_⟩
    · intro hTrue
      rw [hSibling] at hTrue
      cases hTrue
    · rw [hIdx]
      rfl
  have hSame : merkStepParent I.K (I.s.mem I.root).right I.root I.s (I.s.mem (I.s.mem I.root).right)
      (I.s.mem I.root) =
      I.s.mem I.root := by
    unfold merkStepParent
    rw [hIdx, hSibling]
    change { I.s.mem I.root with hash := I.K.sha256 [(I.s.mem (I.s.mem I.root).right).record] } = _
    rw [← hHash]
  rw [merkClimb_of_stepped hStepped, MerkleState.write_self,
    hSame, merkClimb, MerkleState.write_self]

end Insertion

variable {α : Type} [DecidableEq α] {K : NodeHasher α} {root key : Word} {s : MerkleState α}

theorem merkInsert_deep {t : MerkleTree α} {hash : α} {handed : Set Word}
    (hSound : s.Sound root handed) (hTree : TreeAt K root s t)
    (hDeep : merkMaxDepth - 1 < depthOpt key (some t)) :
    merkInsert K root key hash s = .error .noBackingPage ∨ ∃ s' handed',
    merkInsert K root key hash s = .ok (0, s') ∧ TreeAt K root s' t ∧ s'.Sound root handed' := by
  rcases merkInsert_start K key hash hSound with hNone | ⟨I, rfl, rfl, rfl, rfl, hStarts⟩
  · exact .inl hNone
  · right
    have hRoot := hStarts.root_mem
    have hSub := hStarts.subtree hTree
    have hSame : I.s.mem (I.s.mem I.root).right = s.mem (s.mem I.root).right := by
      rw [hRoot]
      exact (hStarts.old _ (hTree.live _ mem_footprint_self)).1
    have hLeft : (I.s.mem I.root).left = 0 := by
      rw [hRoot]
      exact hTree.root_left
    have hHash : (I.s.mem I.root).hash = I.K.sha256 [(I.s.mem (I.s.mem I.root).right).record] := by
      rw [hSame, hRoot]
      exact hTree.root_hash
    have hSide : true = !decide (I.key < (I.s.mem I.root).ptr) := by
      rw [hRoot, hTree.root_ptr]
      simp
    have hWalk := Insertion.merkClimb_inner hSub (Nat.lt_of_succ_lt_succ hDeep) [I.root]
    refine ⟨I.s, I.handed, ?_, ?_, I.inv, I.root_out⟩
    · rw [hStarts.run, if_neg hSub.rep.ne_zero]
      change merkClimb I.K I.root I.newNode (merkWalk I.s.mem I.key (30 + 1) I.root []).1
        (merkWalk I.s.mem I.key (30 + 1) I.root []).2
        (I.s.mem (merkWalk I.s.mem I.key (30 + 1) I.root []).1)
        I.s = _
      rw [merkWalk_of_child hSide hSub.rep.ne_zero]
      exact hWalk.2.trans (Insertion.merkClimb_inner_root hLeft hHash hWalk.1)
    · exact
        { root_ptr := by rw [hRoot]; exact hTree.root_ptr
          root_left := hLeft
          root_hash := hHash
          rep := hSub.rep
          nodup := hSub.nodup
          live := fun x hMem => (hSub.live x hMem).1 }

----
-- Any Insertions
----

variable {α : Type}

/- The tree after some calls, the last call first. -/
def treeAfter : List (Word × α) → Option (MerkleTree α)
| [] => none
| (key, hash) :: calls =>
  if depthOpt key (treeAfter calls) ≤ merkMaxDepth - 1 then
    some (insertOpt key hash (treeAfter calls))
  else treeAfter calls

theorem entries_treeAfter {calls : List (Word × α)} {t : MerkleTree α}
    (hTree : treeAfter calls = some t) {entry : Word × α} (hMem : entry ∈ t.entries) :
    entry ∈ calls := by
  induction calls generalizing t with
  | nil => cases hTree
  | cons call calls ih =>
    unfold treeAfter at hTree
    split at hTree
    · cases hTree
      rcases mem_entries_insertOpt hMem with hNew | ⟨t', hOld, hEntry⟩
      · rw [hNew]
        exact List.mem_cons_self
      · exact List.mem_cons_of_mem _ (ih hOld hEntry)
    · exact List.mem_cons_of_mem _ (ih hTree hMem)

variable [DecidableEq α]

/- The states after any calls of `merk_insert` that return, the last call first. -/
inductive Reached (K : NodeHasher α) (root : Word) : List (Word × α) → MerkleState α → Prop where
| empty {s : MerkleState α} {handed : Set Word} : EmptyRoot root s →
      s.alloc.pages = (fun _ => none) → s.alloc.freeList = [] → s.alloc.backing.Dispensed handed →
            ¬ s.alloc.backing.InRegion root → Reached K root [] s
| insert {calls : List (Word × α)} {s s' : MerkleState α} (key : Word) (hash : α) {code : Int} :
    Reached K root calls s → merkInsert K root key hash s = .ok (code, s') →
        Reached K root ((key, hash) :: calls) s'

variable {K : NodeHasher α} {root : Word} {s : MerkleState α} {calls : List (Word × α)}

theorem merkInsert_treeAfter {handed : Set Word} (key : Word) (hash : α)
    (hSound : s.Sound root handed) (hHolds : HoldsTree K root s (treeAfter calls)) :
    merkInsert K root key hash s = .error .noBackingPage ∨ ∃ s' handed',
    merkInsert K root key hash s = .ok (0, s') ∧ s'.Sound root handed' ∧ HoldsTree K root s'
    (treeAfter ((key, hash) :: calls)) := by
  by_cases hDepth : depthOpt key (treeAfter calls) ≤ merkMaxDepth - 1
  · rcases merkInsert_spec hSound hHolds hDepth with hNone | ⟨s', handed', hOk, hTree, hSound', _⟩
    · exact .inl hNone
    · refine .inr ⟨s', handed', hOk, hSound', ?_⟩
      rw [treeAfter, if_pos hDepth]
      exact hTree
  · rw [treeAfter, if_neg hDepth]
    cases hTree : treeAfter calls with
    | none =>
      rw [hTree] at hDepth
      exact absurd (Nat.zero_le _) hDepth
    | some t =>
      rw [hTree] at hHolds hDepth
      rcases merkInsert_deep hSound hHolds (Nat.lt_of_not_le hDepth) with
        hNone | ⟨s', handed', hOk, hTree', hSound'⟩
      · exact .inl hNone
      · exact .inr ⟨s', handed', hOk, hSound', hTree'⟩

theorem Reached.holds (hReached : Reached K root calls s) : (∃ handed, s.Sound root handed) ∧
    HoldsTree K root s (treeAfter calls) := by
  induction hReached with
  | empty hEmpty hPages hList hDispensed hOut =>
    refine ⟨⟨_, ⟨hDispensed, ?_, ?_⟩, hOut⟩, hEmpty⟩
    · intro page hdr hPage
      rw [hPages] at hPage
      cases hPage
    · rw [hList]
      intro page hMem
      cases hMem
  | insert key hash _ hInsert ih =>
    rcases ih with ⟨⟨handed, hSound⟩, hHolds⟩
    rcases merkInsert_treeAfter key hash hSound hHolds with
      hNone | ⟨s', handed', hOk, hSound', hHolds'⟩
    · rw [hNone] at hInsert
      cases hInsert
    · rw [hOk] at hInsert
      cases hInsert
      exact ⟨⟨handed', hSound'⟩, hHolds'⟩

theorem Built.reached (hBuilt : Built K root calls s) : Reached K root calls s := by
  induction hBuilt with
  | empty hEmpty hPages hList hDispensed hOut => exact .empty hEmpty hPages hList hDispensed hOut
  | insert key hash _ _ hInsert ih => exact .insert key hash ih hInsert

theorem Reached.merkInsert_room {inc n taken : Nat} (hReached : Reached K root calls s)
    (hStepped : s.alloc.backing.Stepped inc n taken) (hRoom : taken + merkMaxDepth < n) (key : Word)
    (hash : α) : ∃ s' taken', merkInsert K root key hash s = .ok (0, s') ∧
    HoldsTree K root s' (treeAfter ((key, hash) :: calls)) ∧ s'.alloc.backing.Stepped inc n taken' ∧
    taken' ≤ taken + merkMaxDepth := by
  rcases hReached.holds with ⟨⟨handed, hSound⟩, hHolds⟩
  rcases merkInsert_treeAfter key hash hSound hHolds with hNone | ⟨s', handed', hOk, _, hHolds'⟩
  · exfalso
    have hBound := merkInsert_lacks hNone inc n taken hStepped
    omega
  · rcases merkInsert_spends hOk inc n taken hStepped with ⟨taken', _, hAtMost, hLt, hEq⟩
    refine ⟨s', taken', hOk, hHolds', ?_, hAtMost⟩
    rw [hEq]
    exact hStepped.advance hLt

theorem exists_reached {inc n : Nat} (hStart : Reached K root [] s)
    (hStepped : s.alloc.backing.Stepped inc n 0) (calls : List (Word × α))
    (hRoom : merkMaxDepth * calls.length < n) : ∃ s' taken, Reached K root calls s' ∧
    s'.alloc.backing.Stepped inc n taken ∧ taken ≤ merkMaxDepth * calls.length := by
  induction calls with
  | nil => exact ⟨s, 0, hStart, hStepped, Nat.zero_le _⟩
  | cons call calls ih =>
    rw [List.length_cons, Nat.mul_succ] at hRoom ⊢
    rcases ih (by omega) with ⟨s', taken, hReached, hStepped', hTaken⟩
    rcases hReached.merkInsert_room hStepped' (by omega) call.1 call.2 with
      ⟨s'', taken', hOk, _, hStepped'', hAtMost⟩
    exact ⟨s'', taken', hReached.insert call.1 call.2 hOk, hStepped'', by omega⟩

----
-- Where The Search Ends
----

variable {α : Type} {K : NodeHasher α} {root key : Word} {hash : α}
variable {mem : Word → MerkleNode α} {s : MerkleState α}

/- The hash at the leaf where the search for a key ends, if it ends within a number of nodes. -/
def searchHash (mem : Word → MerkleNode α) (key : Word) : Nat → Word → Option α
| 0, _ => none
| nodes + 1, a =>
  if (mem a).isLeaf then some (mem a).hash
  else
    searchHash mem key nodes ((mem a).child (!decide (key < (mem a).ptr)))

/- The search for the key ends at a leaf with this hash. -/
def FindsHash (mem : Word → MerkleNode α) (root key : Word) (hash : α) : Prop :=
  (mem root).right ≠ 0 ∧ ∃ nodes, searchHash mem key nodes (mem root).right = some hash

theorem searchHash_eq {a : Word} {t : MerkleTree α} (hRep : RepresentsTree K mem a t)
    (nodes : Nat) :
    searchHash mem key nodes a = if t.depth key < nodes then some (t.find key).2 else none := by
  induction t using induction_join (k := key) generalizing a nodes with
  | leaf key' digest =>
    cases nodes with
    | zero => rfl
    | succ nodes =>
      rw [searchHash, hRep.2]
      rfl
  | join right split near far hSide ih =>
    rcases representsTree_join_iff.mp hRep with ⟨_, hPtr, _, hNear, _⟩
    rw [depth_join hSide, find_join hSide]
    cases nodes with
    | zero => rfl
    | succ nodes =>
      have hInner : (mem a).isLeaf = false := MerkleNode.isLeaf_eq_false_of_child hNear.ne_zero
      rw [searchHash, hInner, hPtr, ← hSide]
      simp only [Bool.false_eq_true, if_false, Nat.add_lt_add_iff_right]
      exact ih hNear nodes

theorem TreeAt.findsHash_iff {t : MerkleTree α} (hTree : TreeAt K root s t) :
    FindsHash s.mem root key hash ↔ hash = (t.find key).2 := by
  constructor
  · rintro ⟨_, nodes, hFound⟩
    rw [searchHash_eq hTree.rep] at hFound
    split at hFound
    · cases hFound
      rfl
    · cases hFound
  · intro hEq
    refine ⟨hTree.rep.ne_zero, t.depth key + 1, ?_⟩
    rw [searchHash_eq hTree.rep, if_pos (Nat.lt_succ_self _), hEq]

theorem visitsLeaf_of_depth_le {a : Word} {t : MerkleTree α} (hRep : RepresentsTree K mem a t)
    {steps : Nat} (hDepth : t.depth key ≤ steps) : visitsLeaf mem key steps a = true := by
  induction t using induction_join (k := key) generalizing a steps with
  | leaf key' digest =>
    have hLeaf : (mem a).isLeaf = true := by
      rw [hRep.2]
      rfl
    cases steps with
    | zero => exact hLeaf
    | succ steps => rw [visitsLeaf, hLeaf, Bool.true_or]
  | join right split near far hSide ih =>
    rcases representsTree_join_iff.mp hRep with ⟨_, hPtr, _, hNear, _⟩
    rw [depth_join hSide] at hDepth
    cases steps with
    | zero => exact absurd hDepth (Nat.not_succ_le_zero _)
    | succ steps =>
      rw [visitsLeaf, hPtr, ← hSide, ih hNear (Nat.le_of_succ_le_succ hDepth), Bool.or_true]

theorem HoldsTree.visitsLeaf_iff {t : Option (MerkleTree α)} (hHolds : HoldsTree K root s t)
    (steps : Nat) : visitsLeaf s.mem key (steps + 1) root = true ↔ depthOpt key t ≤ steps + 1 := by
  refine ⟨hHolds.depthOpt_le, ?_⟩
  intro hDepth
  cases t with
  | none =>
    have hLeaf : (s.mem root).isLeaf = true := by
      unfold MerkleNode.isLeaf
      rw [hHolds.root_left, hHolds.root_right]
      rfl
    rw [visitsLeaf, hLeaf, Bool.true_or]
  | some t =>
    have hSide : (!decide (key < (s.mem root).ptr)) = true := by
      rw [hHolds.root_ptr]
      simp
    rw [visitsLeaf, hSide]
    have hBelow : visitsLeaf s.mem key steps (s.mem root).right = true :=
      visitsLeaf_of_depth_le hHolds.rep (Nat.le_of_succ_le_succ hDepth)
    change ((s.mem root).isLeaf || visitsLeaf s.mem key steps (s.mem root).right) = true
    rw [hBelow, Bool.or_true]

theorem findsHash_after_iff {s' : MerkleState α} {calls : List (Word × α)}
    (hHolds : HoldsTree K root s (treeAfter calls))
    (hHolds' : HoldsTree K root s' (treeAfter ((key, hash) :: calls))) :
    FindsHash s'.mem root key hash ↔ visitsLeaf s.mem key (merkMaxDepth - 1) root = true ∨
    FindsHash s.mem root key hash := by
  have hVisits : visitsLeaf s.mem key (merkMaxDepth - 1) root = true ↔
      depthOpt key (treeAfter calls) ≤ merkMaxDepth - 1 :=
    hHolds.visitsLeaf_iff 30
  rw [hVisits]
  by_cases hDepth : depthOpt key (treeAfter calls) ≤ merkMaxDepth - 1
  · rw [treeAfter, if_pos hDepth] at hHolds'
    have hTree : TreeAt K root s' (insertOpt key hash (treeAfter calls)) := hHolds'
    refine ⟨fun _ => .inl hDepth, fun _ => ?_⟩
    rw [hTree.findsHash_iff]
    have hLookup := lookup_insertOpt (treeAfter calls) key key hash
    rw [if_pos rfl] at hLookup
    rw [find_of_lookup hLookup]
  · rw [treeAfter, if_neg hDepth] at hHolds'
    cases hTree : treeAfter calls with
    | none =>
      rw [hTree] at hDepth
      exact absurd (Nat.zero_le _) hDepth
    | some t =>
      rw [hTree] at hHolds hHolds' hDepth
      have hBefore : TreeAt K root s t := hHolds
      have hAfter : TreeAt K root s' t := hHolds'
      rw [hAfter.findsHash_iff, hBefore.findsHash_iff]
      exact ⟨.inr, fun hEither => hEither.resolve_left hDepth⟩

variable [DecidableEq α]

theorem HoldsTree.merkVerify_iff {t : Option (MerkleTree α)} (hHolds : HoldsTree K root s t)
    (key : Word) (hash : α) (uninit : MerkleNode α) : ∃ enough, ∀ rounds, enough ≤ rounds →
    merkVerify K s.mem root key hash uninit rounds = some true ∧ FindsHash s.mem root key hash ∨
    merkVerify K s.mem root key hash uninit rounds = some false ∧
    ¬ FindsHash s.mem root key hash := by
  cases t with
  | none =>
    have hRight : (s.mem root).right = 0 := hHolds.root_right
    refine ⟨0, fun rounds _ => .inr ⟨?_, ?_⟩⟩
    · unfold merkVerify
      rw [if_pos hRight]
    · intro hFinds
      exact hFinds.1 hRight
  | some t =>
    have hTree : TreeAt K root s t := hHolds
    refine ⟨t.depth key + 1, fun rounds hRounds => ?_⟩
    rw [hTree.merkVerify_eq uninit hRounds, hTree.findsHash_iff]
    by_cases hEq : hash = (t.find key).2
    · exact .inl ⟨by rw [decide_eq_true hEq], hEq⟩
    · exact .inr ⟨by rw [decide_eq_false hEq], hEq⟩

----
-- Lost Insertions And Absent Keys
----

variable {α : Type} [DecidableEq α] {K : NodeHasher α} {root : Word}
variable {s : MerkleState α} {calls : List (Word × α)}

/- The depth check never fires. A call that has its backing pages returns zero, and the entry can be
   verified if the search for the key visits a leaf in time, or if the leaf where it ends has the
   hash already. -/
theorem merkInsert_stored_iff (hReached : Reached K root calls s) (key : Word) (hash : α) :
    merkInsert K root key hash s = .error .noBackingPage ∨ ∃ s',
    merkInsert K root key hash s = .ok (0, s') ∧ ∀ uninit, ∃ enough, ∀ rounds, enough ≤ rounds →
    (merkVerify K s'.mem root key hash uninit rounds = some true ↔
      visitsLeaf s.mem key (merkMaxDepth - 1) root = true ∨
      FindsHash s.mem root key hash) := by
  rcases hReached.holds with ⟨⟨handed, hSound⟩, hHolds⟩
  rcases merkInsert_treeAfter key hash hSound hHolds with hNone | ⟨s', handed', hOk, _, hHolds'⟩
  · exact .inl hNone
  · refine .inr ⟨s', hOk, fun uninit => ?_⟩
    have hFinds := findsHash_after_iff hHolds hHolds'
    rcases hHolds'.merkVerify_iff key hash uninit with ⟨enough, hVerify⟩
    refine ⟨enough, fun rounds hRounds => ?_⟩
    rw [← hFinds]
    rcases hVerify rounds hRounds with ⟨hTrue, hFound⟩ | ⟨hFalse, hMissing⟩
    · exact ⟨fun _ => hFound, fun _ => hTrue⟩
    · rw [hFalse]
      refine ⟨?_, fun hFound => absurd hFound hMissing⟩
      intro hEq
      cases hEq

theorem merkInsert_stored_iff_sampleThree : merkInsert sampleHasher sampleRoot 3 40 sampleThree =
    .error .noBackingPage ∨
    ∃ s', merkInsert sampleHasher sampleRoot 3 40 sampleThree = .ok (0, s') ∧
    ∀ uninit, ∃ enough, ∀ rounds, enough ≤ rounds →
    (merkVerify sampleHasher s'.mem sampleRoot 3 40 uninit rounds = some true ↔
      visitsLeaf sampleThree.mem 3 (merkMaxDepth - 1) sampleRoot = true ∨
      FindsHash sampleThree.mem sampleRoot 3 40) :=
  merkInsert_stored_iff built_sampleThree.reached 3 40

/- A backing store of sixteen megabytes. -/
def deepStart : MerkleState Nat where
  mem _ := { ptr := 0, hash := 0, left := 0, right := 0 }
  alloc :=
    { pages := fun _ => none, freeList := []
      backing :=
        { region := 0xffffffff40000000
          regionSize := 0x1000000
          nextOffset := 0
          incBy := 0x801000 } }

/- The keys up to 32 in ascending order. -/
def ascendingCalls : List (Word × Nat) :=
  (List.range 32).reverse.map fun i => (BitVec.ofNat 64 (i + 1), 2 * (i + 1))

/- The next key is lost: the result is zero, and the entry cannot be verified. -/
theorem merkInsert_loses_next : ∃ s s', Reached sampleHasher sampleRoot ascendingCalls s ∧
    merkInsert sampleHasher sampleRoot 33 66 s = .ok (0, s') ∧
    ∀ uninit, ∃ enough, ∀ rounds, enough ≤ rounds →
    merkVerify sampleHasher s'.mem sampleRoot 33 66 uninit rounds = some false := by
  have hStepped : deepStart.alloc.backing.Stepped 2049 4096 0 := by
    constructor
    all_goals decide
  have hStart : Reached sampleHasher sampleRoot [] deepStart := by
    refine .empty ⟨rfl, rfl, rfl⟩ rfl rfl ⟨2049, 4096, 0, hStepped, rfl⟩ ?_
    unfold Backing.InRegion
    decide
  have hFind : (treeAfter ((33, 66) :: ascendingCalls)).map (fun t => (t.find 33).2) = some 64 := by
    decide +kernel
  rcases exists_reached hStart hStepped ascendingCalls
    (by decide) with ⟨s, taken, hReached, hStepped', hTaken⟩
  have hLength : ascendingCalls.length = 32 := rfl
  have hDepth : merkMaxDepth = 32 := rfl
  rw [hLength, hDepth] at hTaken
  rcases hReached.merkInsert_room hStepped' (by omega) 33 66 with ⟨s', _, hOk, hHolds, _⟩
  refine ⟨s, s', hReached, hOk, fun uninit => ?_⟩
  rcases hHolds.merkVerify_iff 33 66 uninit with ⟨enough, hVerify⟩
  refine ⟨enough, fun rounds hRounds => ?_⟩
  rcases hVerify rounds hRounds with ⟨_, hFound⟩ | ⟨hFalse, _⟩
  · exfalso
    rcases Option.map_eq_some_iff.mp hFind with ⟨t, hTree, hHash⟩
    rw [hTree] at hHolds
    have hAt : TreeAt sampleHasher sampleRoot s' t := hHolds
    rw [hAt.findsHash_iff, hHash] at hFound
    cases hFound
  · exact hFalse

/- An absent key is rejected unless the search for it ends at a leaf with the given hash. Then that
   hash was inserted with another key. -/
theorem merkVerify_absent_iff {key : Word} (hReached : Reached K root calls s)
    (hAbsent : key ∉ calls.map Prod.fst) (hash : α) (uninit : MerkleNode α) :
    (∃ enough, ∀ rounds, enough ≤ rounds → (merkVerify K s.mem root key hash uninit rounds =
      some false ↔
      ¬ FindsHash s.mem root key hash)) ∧
    (FindsHash s.mem root key hash → ∃ other ≠ key, (other, hash) ∈ calls) := by
  have hHolds := hReached.holds.2
  refine ⟨?_, ?_⟩
  · rcases hHolds.merkVerify_iff key hash uninit with ⟨enough, hVerify⟩
    refine ⟨enough, fun rounds hRounds => ?_⟩
    rcases hVerify rounds hRounds with ⟨hTrue, hFound⟩ | ⟨hFalse, hMissing⟩
    · rw [hTrue]
      refine ⟨?_, fun hMissing => absurd hFound hMissing⟩
      intro hEq
      cases hEq
    · exact ⟨fun _ => hMissing, fun _ => hFalse⟩
  · intro hFound
    cases hTree : treeAfter calls with
    | none =>
      rw [hTree] at hHolds
      exact absurd hHolds.root_right hFound.1
    | some t =>
      rw [hTree] at hHolds
      have hAt : TreeAt K root s t := hHolds
      have hEntry := entries_treeAfter hTree (find_mem_entries t key)
      rw [hAt.findsHash_iff] at hFound
      refine ⟨(t.find key).1, ?_, ?_⟩
      · intro hEq
        apply hAbsent
        rw [← hEq]
        exact List.mem_map_of_mem hEntry
      · rw [hFound]
        exact hEntry

theorem merkVerify_absent_iff_sampleThree : (∃ enough, ∀ rounds, enough ≤ rounds →
      (merkVerify sampleHasher sampleThree.mem sampleRoot 3
      40 (sampleThree.mem 0) rounds = some false ↔
      ¬ FindsHash sampleThree.mem sampleRoot 3 40)) ∧
    (FindsHash sampleThree.mem sampleRoot 3 40 → ∃ other ≠ 3, (other, 40) ∈
      ([(1, 30), (2, 20), (1, 10)] : List (Word × Nat))) :=
  merkVerify_absent_iff built_sampleThree.reached (by decide) 40 (sampleThree.mem 0)

/- With one key in the tree, every key is accepted with its hash. -/
theorem merkVerify_accepts_absent : Reached sampleHasher sampleRoot [(1, 10)] sampleOne ∧
    merkVerify sampleHasher sampleOne.mem sampleRoot 2 10 (sampleOne.mem 0) 1 = some true := by
  have hOne : merkInsert sampleHasher sampleRoot 1 10 sampleStart = .ok (0, sampleOne) :=
    merkInsert_eq_afterInsert (by decide +kernel)
  exact ⟨built_sampleStart.reached.insert 1 10 hOne, by decide +kernel⟩

end Keystone
