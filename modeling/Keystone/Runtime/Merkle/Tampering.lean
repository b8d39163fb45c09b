import Keystone.Runtime.Merkle.IntactPath

/-
  Insertion into a tree that was tampered with.

  An attacker overwrites nodes outside of the trusted root. The next insertion checks each node of
  its path with its sibling against the parent, except for the child of the root, which has no
  sibling, and for nodes with one child. Forged nodes there become part of the new root hash.

  If the child of the root matches the root's hash and the path is a path of inner nodes to a leaf,
  everything that the insertion folds into the new root is genuine, and verification accepts the
  last hashes only.
-/

----
-- Verification of a Genuine Tree
----

namespace Keystone

open HashTree
open scoped WordOrder

variable {α : Type} [DecidableEq α] {K : NodeHasher α} {pages : Set α} {records : Set (Word × α)}
variable {mem : Word → MerkleNode α}

theorem merkVerifySingleNode_genuine {node left right : MerkleNode α} {t : MerkleTree α}
    (hSeparates : Separates K.sha256 pages records) (hGenuine : Genuine K.sha256 pages records t)
    (hLeft : node.left ≠ 0 → left.record ∈ records)
    (hRight : node.right ≠ 0 → right.record ∈ records) (hInner : node.isLeaf = false)
    (hRecord : node.record = t.label K.sha256)
    (hCheck : merkVerifySingleNode K node (if node.left ≠ 0 then some left else none)
      (if node.right ≠ 0 then some right else none) = true) :
    ∃ tLeft tRight, t = .node node.ptr tLeft tRight ∧ (node.left ≠ 0 ∧
      left.record = tLeft.label K.sha256) ∧
    node.right ≠ 0 ∧ right.record = tRight.label K.sha256 := by
  have hHash : node.hash = (t.label K.sha256).2 := congrArg Prod.snd hRecord
  have hPtr : node.ptr = (t.label K.sha256).1 := congrArg Prod.fst hRecord
  by_cases hL : node.left = 0
  · by_cases hR : node.right = 0
    · rw [MerkleNode.isLeaf, hL, hR] at hInner
      cases hInner
    · simp only [ne_eq, hL, hR, not_true_eq_false, not_false_eq_true, if_true, if_false] at hCheck
      have hEq : K.sha256 [right.record] = node.hash := by
        simpa [merkVerifySingleNode, childRecords] using hCheck
      exact absurd (hEq.trans hHash) (hGenuine.hash_singleton_ne hSeparates (hRight hR))
  · by_cases hR : node.right = 0
    · simp only [ne_eq, hL, hR, not_true_eq_false, not_false_eq_true, if_true, if_false] at hCheck
      have hEq : K.sha256 [left.record] = node.hash := by
        simpa [merkVerifySingleNode, childRecords] using hCheck
      exact absurd (hEq.trans hHash) (hGenuine.hash_singleton_ne hSeparates (hLeft hL))
    · simp only [ne_eq, hL, hR, not_false_eq_true, if_true] at hCheck
      have hEq : K.sha256 (sides false left.record right.record) =
          node.hash := by
        simpa [merkVerifySingleNode, childRecords, sides] using hCheck
      rcases hGenuine.eq_join hSeparates (hLeft hL) (hRight hR) (hEq.trans hHash) with
        ⟨tLeft, tRight, hTree, hNear, hFar⟩
      rw [← hPtr] at hTree
      exact ⟨tLeft, tRight, hTree, ⟨hL, hNear⟩, hR, hFar⟩

/- Verification from the top of a genuine tree accepts the digest at the end of the search only. -/
theorem merkVerifyLoop_sound {key : Word} {hash : α} {t : MerkleTree α}
    {node left right : MerkleNode α} {rounds : Nat} (hSeparates : Separates K.sha256 pages records)
    (hKnown : ∀ x, (mem x).record ∈ records) (hPage : hash ∈ pages)
    (hGenuine : Genuine K.sha256 pages records t) (hRecord : node.record = t.label K.sha256)
    (hTrue : merkVerifyLoop K mem key hash rounds node left right = some true) :
    hash = (t.find key).2 := by
  induction rounds generalizing t node left right with
  | zero => cases hTrue
  | succ rounds ih =>
    unfold merkVerifyLoop at hTrue
    by_cases hLeaf : node.isLeaf = true
    · rw [if_pos hLeaf] at hTrue
      have hEq : hash = node.hash := of_decide_eq_true (Option.some.inj hTrue)
      have hHash : hash = (t.label K.sha256).2 := hEq.trans (congrArg Prod.snd hRecord)
      rw [hHash] at hPage
      rw [hGenuine.eq_leaf hSeparates hPage]
      exact hHash
    · rw [if_neg hLeaf] at hTrue
      dsimp only at hTrue
      generalize hLeft : (if node.left ≠ 0 then mem node.left else left) = left' at hTrue
      generalize hRight : (if node.right ≠ 0 then mem node.right else right) = right' at hTrue
      cases hCheck : merkVerifySingleNode K node (if node.left ≠ 0 then some left' else none)
          (if node.right ≠ 0 then some right' else none)
        with
      | false =>
        rw [hCheck] at hTrue
        cases hTrue
      | true =>
        rw [hCheck, Bool.not_true] at hTrue
        have hLeftKnown : node.left ≠ 0 → left'.record ∈ records := by
          intro hNe
          rw [← hLeft, if_pos hNe]
          exact hKnown node.left
        have hRightKnown : node.right ≠ 0 → right'.record ∈ records := by
          intro hNe
          rw [← hRight, if_pos hNe]
          exact hKnown node.right
        rcases merkVerifySingleNode_genuine hSeparates hGenuine hLeftKnown hRightKnown
            (Bool.eq_false_iff.mpr hLeaf) hRecord hCheck
          with
          ⟨tLeft, tRight, rfl, ⟨_, hLeftLabel⟩, _, hRightLabel⟩
        rcases hGenuine.children with ⟨hGenuineLeft, hGenuineRight⟩
        unfold find
        by_cases hLt : key < node.ptr
        · rw [if_pos hLt] at hTrue ⊢
          exact ih hGenuineLeft hLeftLabel hTrue
        · rw [if_neg hLt] at hTrue ⊢
          exact ih hGenuineRight hRightLabel hTrue

----
-- Integrity
----

variable {α : Type}

/- Nodes may change at will, the trusted root and the allocator stay. -/
structure Tampers (root : Word) (s tampered : MerkleState α) : Prop where
  alloc : tampered.alloc = s.alloc
  root : tampered.mem root = s.mem root

/- The records in memory before and after the tampering and after the insertion, with the new one.
   -/
def involvedRecords (s tampered s' : MerkleState α) (key : Word) (hash : α) : Set (Word × α) :=
  { r |
    (∃ x, r = (s.mem x).record ∨
      r = (tampered.mem x).record ∨ r = (s'.mem x).record) ∨
    r = (key, hash) }

variable [DecidableEq α]

/- After an insertion into the tampered memory that returns zero, verification accepts the last hash
   only. The hash function does not collide on the records involved. -/
def IntegrityKept (K : NodeHasher α) (root : Word) (pages : Set α) (calls : List (Word × α))
    (s tampered : MerkleState α) (key : Word) (hash : α) (key' : Word) (hash' : α) : Prop :=
  ∀ s' uninit rounds, merkInsert K root key hash tampered = .ok (0, s') → Separates K.sha256 pages
          (involvedRecords s tampered s' key hash) →
        key' ∈ calls.map Prod.fst → merkVerify K s'.mem root key' hash' uninit rounds = some true →
            ((key, hash) :: calls).lookup key' = some hash'

/- The child of the root matches the hash in the root, and the search path of the key goes from
   there through nodes with two children to a leaf, in time. All nodes of the path are allocated. -/
structure PathIntact (K : NodeHasher α) (root : Word) (pages : Set α) (key : Word)
    (tampered : MerkleState α) : Prop where
  root_check : merkVerifySingleNode K (tampered.mem root) none
      (some (tampered.mem (tampered.mem root).right)) = true
  path : ∃ path, IntactPath tampered.mem tampered.alloc.Live pages key
          (tampered.mem root).right path ∧
        path.length + 2 ≤ merkMaxDepth

variable {K : NodeHasher α} {root key : Word} {hash : α}
variable {pages : Set α} {s tampered s' : MerkleState α}

omit [DecidableEq α] in
theorem TreeAt.genuine {t : MerkleTree α} {calls : List (Word × α)} (hTree : TreeAt K root s t)
    (hEntries : ∀ entry ∈ t.entries, entry ∈ calls) (hCalls : ∀ call ∈ calls, call.2 ∈ pages) :
    Genuine K.sha256 pages (involvedRecords s tampered s' key hash) t := by
  refine ⟨?_, fun entry hMem => hCalls entry (hEntries entry hMem)⟩
  intro l hMem
  rcases hTree.rep.labels_mem hMem with ⟨x, _, hRecord⟩
  exact .inl ⟨x, .inl hRecord⟩

section

variable (hIntact : PathIntact K root pages key tampered) (hTampers : Tampers root s tampered)
include hIntact hTampers

theorem PathIntact.record_eq {t : MerkleTree α} (hTree : TreeAt K root s t)
    (hSeparates : Separates K.sha256 pages (involvedRecords s tampered s' key hash)) :
    (tampered.mem (tampered.mem root).right).record = t.label K.sha256 := by
  have hCheck : K.sha256 [(tampered.mem (tampered.mem root).right).record] =
      (tampered.mem root).hash := by
    simpa [merkVerifySingleNode, childRecords] using hIntact.root_check
  rw [hTampers.root, hTree.root_hash, hTree.rep.record_eq] at hCheck
  have hKnown : t.label K.sha256 ∈ involvedRecords s tampered s' key hash := by
    rw [← hTree.rep.record_eq]
    exact .inl ⟨_, .inl rfl⟩
  have hFound : (tampered.mem (s.mem root).right).record ∈ involvedRecords s tampered s' key hash :=
    .inl ⟨_, .inr (.inl rfl)⟩
  have hMessage := hSeparates.inj _ _ (.one hFound) (.one hKnown) hCheck
  injection hMessage with hRecord
  rw [hTampers.root]
  exact hRecord

/- What the insertion leaves at the root. -/
theorem PathIntact.merkInsert_authentic {t : MerkleTree α} {handed : Set Word}
    (hSound : s.Sound root handed) (hTree : TreeAt K root s t) (hOrdered : t.Ordered)
    (hGenuine : Genuine K.sha256 pages (involvedRecords s tampered s' key hash) t)
    (hSeparates : Separates K.sha256 pages (involvedRecords s tampered s' key hash))
    (hInsert : merkInsert K root key hash tampered = .ok (0, s')) :
    (s'.mem (s'.mem root).right).record = (t.insert key hash).label K.sha256 ∧
    ∀ l ∈ (t.insert key hash).labels K.sha256, l ∈ involvedRecords s tampered s' key hash := by
  rcases hIntact.path with ⟨path, hPath, hLength⟩
  have hAllocInv : tampered.alloc.Inv handed := by
    rw [hTampers.alloc]
    exact hSound.inv
  rcases merkAllocNode_spec hAllocInv with hNone | ⟨newNode, alloc, handed', hOk, hInv, _, hAlloc⟩
  · unfold merkInsert at hInsert
    rw [hNone] at hInsert
    cases hInsert
  have hRootOut : ¬ alloc.backing.InRegion root := by
    rw [hAlloc.region.inRegion_iff, hTampers.alloc]
    exact hSound.root_out
  let I : Insertion α :=
    { K := K, root := root, key := key, hash := hash
      newNode := newNode
      s := merkInsertStart key hash tampered newNode alloc
      handed := handed', inv := hInv
      root_out := hRootOut
      new_live := (hAlloc.live_iff newNode).mpr (.inr rfl)
      new_mem := MerkleState.write_mem_self }
  have hSame : ∀ x ≠ newNode, I.s.mem x = tampered.mem x :=
    fun x hNe => MerkleState.write_mem_of_ne hNe
  have hRoot : I.s.mem root = s.mem root := (hSame root I.newNode_ne_root.symm).trans hTampers.root
  have hFresh : ∀ x, tampered.alloc.Live x → x ≠ newNode := by
    rintro x hLive rfl
    exact hAlloc.fresh hLive
  have hWatched : I.Watched pages (involvedRecords s tampered s' key hash) s' := by
    refine ⟨hSeparates, ?_, fun x => .inl ⟨x, .inr (.inr rfl)⟩⟩
    intro x
    by_cases hNew : x = newNode
    · subst hNew
      rw [I.new_mem]
      exact .inr rfl
    · rw [hSame x hNew]
      exact .inl ⟨x, .inr (.inl rfl)⟩
  have hPath' : IntactPath I.s.mem I.OldNode pages key (I.s.mem root).right path := by
    rw [hRoot, ← hTampers.root]
    refine hPath.congr ?_ ?_
    · intro x hLive
      exact ⟨(hAlloc.live_iff x).mpr (.inl hLive), hFresh x hLive⟩
    · intro x hLive
      exact hSame x (hFresh x hLive)
  have hStart : I.s = merkInsertStart key hash tampered newNode
      alloc := rfl
  have hRight : (I.s.mem root).right ≠ 0 := hPath'.head_live.ne_zero
  have hSide : true = !decide (key < (I.s.mem root).ptr) := by
    rw [hRoot, hTree.root_ptr]
    simp
  rw [merkInsert_of_alloc hOk hStart, if_neg hRight,
    show merkMaxDepth - 1 = 30 + 1 from rfl,
    merkWalk_of_child hSide hRight] at hInsert
  have hNoUp : ∀ x ∈ ([] : List Word), I.OldNode x ∧ x ∉ (I.s.mem root).right :: path := by
    intro x hMem
    cases hMem
  rcases Insertion.merkClimb_carried hWatched hPath' hNoUp
      (Nat.le_of_add_le_add_right hLength) hInsert with
    ⟨currNode, s₁, hClimb, hCarried⟩
  have hAuthentic := hCarried.root hWatched hPath' hClimb
  have hRecord : (I.s.mem (I.s.mem root).right).record = t.label K.sha256 := by
    rw [← hIntact.record_eq hTampers hTree hSeparates, hRoot, ← hTampers.root,
      hSame _ (hFresh _ hPath.head_live)]
  rcases hAuthentic t hGenuine hOrdered hRecord with ⟨hTop, hLabels⟩
  refine ⟨hTop, ?_⟩
  intro l hMem
  rcases hLabels l hMem with rfl | hIn
  · exact .inl ⟨_, .inr (.inr rfl)⟩
  · exact hIn

end

/- If the path of the next insertion is intact, integrity is kept. Hashes that are inserted or
   verified are digests of pages. -/
theorem integrityKept_of_pathIntact {calls : List (Word × α)} {key' : Word} {hash' : α}
    (hBuilt : Built K root calls s) (hTampers : Tampers root s tampered)
    (hCalls : ∀ call ∈ calls, call.2 ∈ pages) (hHash : hash ∈ pages) (hPage : hash' ∈ pages)
    (hIntact : PathIntact K root pages key tampered) :
    IntegrityKept K root pages calls s tampered key hash key' hash' := by
  intro s' uninit rounds hInsert hSeparates hMem hTrue
  rcases hBuilt.stores with ⟨t, hStores⟩
  rcases hStores.sound with ⟨handed, hSound⟩
  rcases exists_lookup_of_mem hMem with ⟨last, hLast⟩
  have hLookup := hStores.lookup_eq key'
  rw [hLast] at hLookup
  rcases Option.bind_eq_some_iff.mp hLookup with ⟨t, rfl, hFound⟩
  have hTree : TreeAt K root s t := hStores.holds
  have hOrdered := hStores.ordered t rfl
  have hGenuine : Genuine K.sha256 pages (involvedRecords s tampered s' key hash) t :=
    hTree.genuine (hStores.entries_mem t rfl) hCalls
  rcases hIntact.merkInsert_authentic hTampers hSound hTree
      hOrdered hGenuine hSeparates hInsert with
    ⟨hTop, hLabels⟩
  have hGenuine' : Genuine K.sha256 pages (involvedRecords s tampered s' key hash)
      (t.insert key hash) := by
    refine ⟨hLabels, ?_⟩
    intro entry hIn
    rcases mem_entries_insert hIn with rfl | hOld
    · exact hHash
    · exact hGenuine.entries_mem entry hOld
  have hLoop : merkVerifyLoop K s'.mem key' hash' rounds (s'.mem (s'.mem root).right) uninit
      (s'.mem (s'.mem root).right) = some true := by
    unfold merkVerify at hTrue
    dsimp only at hTrue
    split at hTrue
    · cases hTrue
    · split at hTrue
      · cases hTrue
      · exact hTrue
  have hFind :=
    merkVerifyLoop_sound hSeparates (fun x => .inl ⟨x, .inr (.inr rfl)⟩) hPage hGenuine' hTop hLoop
  have hLookup' := hStores.lookup_insertOpt key hash key'
  have hMem' : key' ∈ ((key, hash) :: calls).map Prod.fst := List.mem_cons_of_mem _ hMem
  rcases exists_lookup_of_mem hMem' with ⟨last', hLast'⟩
  rw [hLast'] at hLookup'
  have hEnd : ((t.insert key hash).find key').2 = last' := find_of_lookup hLookup'
  rw [hLast', hFind, hEnd]

theorem encodeRecords_injective : Function.Injective encodeRecords := by
  intro m m' hEq
  induction m generalizing m' with
  | nil =>
    cases m' with
    | nil => rfl
    | cons r' rest' => cases hEq
  | cons r rest ih =>
    cases m' with
    | nil => cases hEq
    | cons r' rest' =>
      rcases r with ⟨ptr, hash⟩
      rcases r' with ⟨ptr', hash'⟩
      have hPair := Nat.succ.inj hEq
      rw [Nat.pair_eq_pair, Nat.pair_eq_pair] at hPair
      rcases hPair with ⟨⟨hPtr, rfl⟩, hRest⟩
      rw [BitVec.eq_of_toNat_eq hPtr, ih hRest]

/- The digests of pages in the samples. -/
def samplePages : Set Nat := { digest | digest % 2 = 0 }

theorem sampleHasher_separates (records : Set (Word × Nat)) :
    Separates sampleHasher.sha256 samplePages records := by
  constructor
  · intro m m' _ _ hEq
    apply encodeRecords_injective
    have hNat : 2 * encodeRecords m + 1 = 2 * encodeRecords m' + 1 := hEq
    omega
  · intro m _ hPage
    have hNat : (2 * encodeRecords m + 1) % 2 = 0 := hPage
    omega

/- The only leaf, below the root, gets another hash. -/
def sampleForged : MerkleState Nat :=
  sampleOne.write (sampleOne.mem sampleRoot).right { ptr := 1, hash := 12, left := 0, right := 0 }

theorem sampleForged_tampers : Tampers sampleRoot sampleOne sampleForged := by
  refine ⟨MerkleState.write_alloc, MerkleState.write_mem_of_ne ?_⟩
  decide +kernel

/- The insertion does not check the child of the root. It makes the forged leaf a part of the tree.
   -/
theorem not_integrityKept_sampleForged : Built sampleHasher sampleRoot [(1, 10)] sampleOne ∧
    Tampers sampleRoot sampleOne sampleForged ∧
    ¬ IntegrityKept sampleHasher sampleRoot samplePages
    [(1, 10)] sampleOne sampleForged 2 20 1 12 := by
  have hOne : merkInsert sampleHasher sampleRoot 1 10 sampleStart = .ok (0, sampleOne) :=
    merkInsert_eq_afterInsert (by decide +kernel)
  refine ⟨built_sampleStart.insert 1 10 (by decide +kernel) hOne, sampleForged_tampers, ?_⟩
  intro hKept
  have hInsert : merkInsert sampleHasher sampleRoot 2 20 sampleForged =
      .ok (0, afterInsert sampleHasher sampleRoot 2 20 sampleForged) :=
    merkInsert_eq_afterInsert (by decide +kernel)
  have hLast :=
    hKept _ (sampleForged.mem 0) 3 hInsert (sampleHasher_separates _) (by decide)
      (by decide +kernel)
  cases hLast

/- Three leaves, the one for the largest key forged. -/
def sampleWide : MerkleState Nat := afterInsert sampleHasher sampleRoot 3 30 sampleTwo

def sampleWideForged : MerkleState Nat :=
  sampleWide.write 0xffffffff40000100 { ptr := 3, hash := 32, left := 0, right := 0 }

theorem built_sampleWide : Built sampleHasher sampleRoot
    [(3, 30), (2, 20), (1, 10)] sampleWide := by
  have hWide : merkInsert sampleHasher sampleRoot 3 30 sampleTwo = .ok (0, sampleWide) :=
    merkInsert_eq_afterInsert (by decide +kernel)
  exact built_sampleTwo.insert 3 30 (by decide +kernel) hWide

theorem sampleWideForged_pathIntact : PathIntact sampleHasher sampleRoot samplePages 1
    sampleWideForged := by
  have hLive : ∀ idx, 1 ≤ idx → idx < merkNodesPerPage →
      Bits.testBit 0xffffffffffffffc0#64 idx = false → sampleWideForged.alloc.Live
      (nodeInPage 0xffffffff40000000 idx) :=
    fun idx hPos hLt hTaken =>
      ⟨0xffffffff40000000, ⟨0xffffffffffffffc0, 58, true⟩,
        by decide +kernel, idx, hPos, hLt, hTaken, rfl⟩
  have hLeaf : IntactPath sampleWideForged.mem sampleWideForged.alloc.Live samplePages 1
      (nodeInPage 0xffffffff40000000 1) [] :=
    .leaf (hLive 1 (by decide) (by decide) (by decide)) (by decide +kernel)
      (show (sampleWideForged.mem (nodeInPage 0xffffffff40000000 1)).hash % 2 = 0 by decide +kernel)
  have hTop : (sampleWideForged.mem sampleRoot).right = nodeInPage 0xffffffff40000000 3 := by
    decide +kernel
  have hChild : (sampleWideForged.mem (nodeInPage 0xffffffff40000000 3)).child
      (!decide (1 < (sampleWideForged.mem (nodeInPage 0xffffffff40000000 3)).ptr)) =
      nodeInPage 0xffffffff40000000 1 := by
    decide +kernel
  have hPath :=
    IntactPath.inner (hLive 3 (by decide) (by decide) (by decide))
      (by decide +kernel) (hChild ▸ hLeaf)
  refine ⟨by decide +kernel, _, hTop ▸ hPath, ?_⟩
  decide

/- The forged leaf is not accepted after the insertion. -/
theorem integrityKept_sampleWideForged : (merkInsert sampleHasher sampleRoot 1 40
      sampleWideForged).map Prod.fst = .ok 0 ∧
    IntegrityKept sampleHasher sampleRoot samplePages [(3, 30), (2, 20), (1, 10)] sampleWide
    sampleWideForged 1 40 3 32 := by
  have hTampers : Tampers sampleRoot sampleWide sampleWideForged := by
    refine ⟨MerkleState.write_alloc, MerkleState.write_mem_of_ne ?_⟩
    decide
  have hCalls : ∀ call ∈ [((3 : Word), 30), (2, 20), (1, 10)], call.2 ∈ samplePages := by
    unfold samplePages
    decide
  refine ⟨by decide +kernel, ?_⟩
  exact integrityKept_of_pathIntact built_sampleWide hTampers
    hCalls rfl rfl sampleWideForged_pathIntact

end Keystone
