import Mathlib.Data.Nat.Pairing
import Keystone.Runtime.Merkle.Insert

/-
  The Merkle tree as a map from keys to the hashes that were inserted last.
-/

----
-- Verification of an Untampered Tree
----

namespace Keystone

open HashTree
open scoped WordOrder

variable {α : Type} [DecidableEq α] {K : NodeHasher α}

/- The loop follows the search for the key to its leaf. -/
theorem merkVerifyLoop_of_representsTree {mem : Word → MerkleNode α} {a key : Word}
    {t : MerkleTree α} {hash : α} (hRep : RepresentsTree K mem a t) {rounds : Nat}
    (hRounds : t.depth key < rounds) (left right : MerkleNode α) :
    merkVerifyLoop K mem key hash rounds (mem a) left right =
    some (decide (hash = (t.find key).2)) := by
  induction t using induction_join (k := key) generalizing a rounds left right with
  | leaf key' digest =>
    cases rounds with
    | zero => omega
    | succ rounds =>
      rw [hRep.2]
      rfl
  | join side split near far hSide ih =>
    rw [depth_join hSide] at hRounds
    cases rounds with
    | zero => omega
    | succ rounds =>
      rcases representsTree_join_iff.mp hRep with ⟨_, hPtr, hHash, hNear, hFar⟩
      have hInner : (mem a).isLeaf = false := MerkleNode.isLeaf_eq_false_of_child hNear.ne_zero
      rw [find_join hSide]
      have hStep := ih hNear (Nat.lt_of_succ_lt_succ hRounds)
      have hLeftNe : (mem a).left ≠ 0 := by
        cases side
        · exact hNear.ne_zero
        · exact hFar.ne_zero
      have hRightNe : (mem a).right ≠ 0 := by
        cases side
        · exact hFar.ne_zero
        · exact hNear.ne_zero
      have hOk : merkVerifySingleNode K (mem a) (some (mem (mem a).left))
          (some (mem (mem a).right)) = true := by
        cases side <;> simp [merkVerifySingleNode, childRecords, hHash, sides, MerkleNode.child]
      unfold merkVerifyLoop
      simp only [hInner, hLeftNe, hRightNe, hOk, hPtr, ne_eq, not_false_eq_true, if_true,
        Bool.false_eq_true, if_false, Bool.not_true]
      by_cases hLt : key < split
      · have hFalse : side = false := by
          rw [hSide, decide_eq_true hLt]
          rfl
        subst hFalse
        rw [if_pos hLt]
        exact hStep _ _
      · have hTrue : side = true := by
          rw [hSide, decide_eq_false hLt]
          rfl
        subst hTrue
        rw [if_neg hLt]
        exact hStep _ _

theorem TreeAt.merkVerify_eq {root key : Word} {s : MerkleState α} {t : MerkleTree α} {hash : α}
    (hTree : TreeAt K root s t) (uninit : MerkleNode α) {rounds : Nat}
    (hRounds : t.depth key < rounds) :
    merkVerify K s.mem root key hash uninit rounds = some (decide (hash = (t.find key).2)) := by
  have hRight : (s.mem root).right ≠ 0 := hTree.rep.ne_zero
  have hOk : merkVerifySingleNode K (s.mem root) none (some (s.mem (s.mem root).right)) = true := by
    simp [merkVerifySingleNode, childRecords, hTree.root_hash]
  unfold merkVerify
  simp only [hRight, if_false, hOk, Bool.not_true, Bool.false_eq_true]
  exact merkVerifyLoop_of_representsTree hTree.rep hRounds
    _ _

/- The search path of a key visits a node without children within a number of steps. -/
def visitsLeaf (mem : Word → MerkleNode α) (key : Word) : Nat → Word → Bool
| 0, a => (mem a).isLeaf
| steps + 1, a =>
  (mem a).isLeaf || visitsLeaf mem key steps ((mem a).child (!decide (key < (mem a).ptr)))

/- The states after calls of `merk_insert`, the last call first. They start with an empty root and
   an allocator that has no pages, and each search path visits a leaf within `MERK_MAX_DEPTH - 1`
   steps. -/
inductive Built (K : NodeHasher α) (root : Word) : List (Word × α) → MerkleState α → Prop where
| empty {s : MerkleState α} {handed : Set Word} : EmptyRoot root s →
      s.alloc.pages = (fun _ => none) → s.alloc.freeList = [] → s.alloc.backing.Dispensed handed →
            ¬ s.alloc.backing.InRegion root → Built K root [] s
| insert {calls : List (Word × α)} {s s' : MerkleState α} (key : Word) (hash : α) {code : Int} :
    Built K root calls s → visitsLeaf s.mem key (merkMaxDepth - 1) root = true →
        merkInsert K root key hash s = .ok (code, s') → Built K root ((key, hash) :: calls) s'

----
-- The Last Insertions
----

variable {α : Type} {K : NodeHasher α} {root key : Word}
variable {mem : Word → MerkleNode α} {s : MerkleState α}

theorem depth_le_of_visitsLeaf {a : Word} {t : MerkleTree α} (hRep : RepresentsTree K mem a t)
    {steps : Nat} (hVisits : visitsLeaf mem key steps a = true) : t.depth key ≤ steps := by
  induction t using induction_join (k := key) generalizing a steps with
  | leaf key' digest => exact Nat.zero_le steps
  | join right split near far hSide ih =>
    rcases representsTree_join_iff.mp hRep with ⟨_, hPtr, _, hNear, _⟩
    have hInner : (mem a).isLeaf = false := MerkleNode.isLeaf_eq_false_of_child hNear.ne_zero
    rw [depth_join hSide]
    cases steps with
    | zero =>
      rw [visitsLeaf, hInner] at hVisits
      cases hVisits
    | succ steps =>
      rw [visitsLeaf, hInner, Bool.false_or, hPtr, ← hSide] at hVisits
      exact Nat.succ_le_succ (ih hNear hVisits)

variable {t : Option (MerkleTree α)}

theorem HoldsTree.depthOpt_le (hHolds : HoldsTree K root s t)
    {steps : Nat} (hVisits : visitsLeaf s.mem key (steps + 1) root = true) :
    depthOpt key t ≤ steps + 1 := by
  cases t with
  | none => exact Nat.zero_le _
  | some t =>
    have hInner : (s.mem root).isLeaf = false := by
      have hChild : (s.mem root).child true ≠ 0 := hHolds.rep.ne_zero
      exact MerkleNode.isLeaf_eq_false_of_child hChild
    have hSide : (!decide (key < (s.mem root).ptr)) = true := by
      rw [hHolds.root_ptr]
      simp
    rw [visitsLeaf, hInner, Bool.false_or, hSide] at hVisits
    exact Nat.succ_le_succ (depth_le_of_visitsLeaf hHolds.rep hVisits)

/- The entries of a tree that was not built yet. -/
def lookupOpt (t : Option (MerkleTree α)) (key : Word) : Option α := t.bind (·.lookup key)

theorem lookup_insertOpt (t : Option (MerkleTree α)) (key key' : Word) (hash : α) :
    (insertOpt key hash t).lookup key' = if key' = key then some hash else lookupOpt t key' := by
  cases t with
  | none =>
    unfold insertOpt lookupOpt HashTree.lookup find
    by_cases hEq : key' = key
    · simp [hEq]
    · simp [hEq, Ne.symm hEq]
  | some t => exact lookup_insert t key key' hash

theorem ordered_insertOpt (hOrdered : ∀ t' ∈ t, t'.Ordered) (key : Word)
    (hash : α) : (insertOpt key hash t).Ordered := by
  cases t with
  | none => trivial
  | some t => exact ordered_insert (hOrdered t rfl)

theorem mem_entries_insertOpt {hash : α} {entry : Word × α}
    (hMem : entry ∈ (insertOpt key hash t).entries) :
    entry = (key, hash) ∨ ∃ t' ∈ t, entry ∈ t'.entries := by
  cases t with
  | none => exact .inl (List.mem_singleton.mp hMem)
  | some t =>
    rcases mem_entries_insert hMem with hNew | hOld
    · exact .inl hNew
    · exact .inr ⟨t, rfl, hOld⟩

variable {calls : List (Word × α)}

theorem exists_lookup_of_mem (hMem : key ∈ calls.map Prod.fst) :
    ∃ hash, calls.lookup key = some hash := by
  induction calls with
  | nil => cases hMem
  | cons call rest ih =>
    rcases call with ⟨key', hash⟩
    by_cases hEq : key = key'
    · subst hEq
      exact ⟨hash, List.lookup_cons_self⟩
    · have hBeq : (key == key') = false := beq_eq_false_iff_ne.mpr hEq
      rw [List.lookup_cons, hBeq]
      rcases List.mem_cons.mp hMem with hHead | hRest
      · exact absurd hHead hEq
      · exact ih hRest

/- What insertions have stored. -/
structure StoresCalls (K : NodeHasher α) (root : Word) (calls : List (Word × α)) (s : MerkleState α)
    (t : Option (MerkleTree α)) : Prop where
  sound : ∃ handed, s.Sound root handed
  holds : HoldsTree K root s t
  ordered : ∀ t' ∈ t, t'.Ordered
  entries_mem : ∀ t' ∈ t, ∀ entry ∈ t'.entries, entry ∈ calls
  lookup_eq : ∀ key, lookupOpt t key = calls.lookup key

theorem StoresCalls.lookup_insertOpt
    (hStores : StoresCalls K root calls s t) (key : Word) (hash : α) (key' : Word) :
    (insertOpt key hash t).lookup key' = ((key, hash) :: calls).lookup key' := by
  rw [Keystone.lookup_insertOpt, hStores.lookup_eq]
  by_cases hEq : key' = key
  · subst hEq
    rw [if_pos rfl, List.lookup_cons_self]
  · have hBeq : (key' == key) = false := beq_eq_false_iff_ne.mpr hEq
    rw [if_neg hEq, List.lookup_cons, hBeq]

variable [DecidableEq α]

theorem StoresCalls.merkInsert
    (hStores : StoresCalls K root calls s t) (hash : α)
    (hVisits : visitsLeaf s.mem key (merkMaxDepth - 1) root = true) :
    merkInsert K root key hash s = .error .noBackingPage ∨ ∃ s',
    merkInsert K root key hash s = .ok (0, s') ∧ StoresCalls K root ((key, hash) :: calls) s'
    (some (insertOpt key hash t)) := by
  rcases hStores.sound with ⟨handed, hSound⟩
  rcases merkInsert_spec hSound hStores.holds (hStores.holds.depthOpt_le hVisits) with
    hNone | ⟨s', handed', hOk, hTree, hSound', _⟩
  · exact .inl hNone
  · right
    refine ⟨s', hOk, ⟨handed', hSound'⟩, hTree, ?_, ?_, ?_⟩
    · rintro t' ⟨⟩
      exact ordered_insertOpt hStores.ordered key hash
    · rintro t' ⟨⟩ entry hMem
      rcases mem_entries_insertOpt hMem with rfl | ⟨t', hT, hOld⟩
      · exact List.mem_cons_self
      · exact List.mem_cons_of_mem _ (hStores.entries_mem t' hT entry hOld)
    · exact hStores.lookup_insertOpt key hash

theorem Built.stores (hBuilt : Built K root calls s) :
    ∃ t, StoresCalls K root calls s t := by
  induction hBuilt with
  | empty hEmpty hPages hList hDispensed hOut =>
    refine ⟨none, ⟨_, ⟨hDispensed, ?_, ?_⟩, hOut⟩, hEmpty, ?_, ?_, fun _ => rfl⟩
    · intro page hdr hPage
      rw [hPages] at hPage
      cases hPage
    · rw [hList]
      intro page hMem
      cases hMem
    · rintro t' ⟨⟩
    · rintro t' ⟨⟩
  | insert key hash _ hVisits hInsert ih =>
    rcases ih with ⟨t, hStores⟩
    rcases hStores.merkInsert hash hVisits with hNone | ⟨s', hOk, hStores'⟩
    · rw [hNone] at hInsert
      cases hInsert
    · rw [hOk] at hInsert
      cases hInsert
      exact ⟨_, hStores'⟩

/- A tree that was built by insertions is a search tree of nodes with two children and matching
   hashes, the next insertion returns zero, and verification accepts the hash that was inserted last
   for a key and no other. -/
theorem merkle_lastWrite {calls : List (Word × α)} (hBuilt : Built K root calls s) : (∀ key hash,
      visitsLeaf s.mem key (merkMaxDepth - 1) root = true → merkInsert K root key hash s =
      .error .noBackingPage ∨
      ∃ s', merkInsert K root key hash s = .ok (0, s')) ∧
    (calls ≠ [] → ∃ t, TreeAt K root s t ∧ t.Ordered) ∧
    (∀ key ∈ calls.map Prod.fst, ∀ hash uninit, ∃ enough, ∀ rounds, enough ≤ rounds →
      merkVerify K s.mem root key hash uninit rounds = some (decide
      (calls.lookup key = some hash))) := by
  rcases hBuilt.stores with ⟨t, hStores⟩
  refine ⟨?_, ?_, ?_⟩
  · intro key hash hVisits
    rcases hStores.merkInsert hash hVisits with hNone | ⟨s', hOk, _⟩
    · exact .inl hNone
    · exact .inr ⟨s', hOk⟩
  · intro hCalls
    rcases List.exists_cons_of_ne_nil hCalls with ⟨⟨key, hash⟩, rest, rfl⟩
    have hLookup := hStores.lookup_eq key
    rw [List.lookup_cons_self] at hLookup
    rcases Option.bind_eq_some_iff.mp hLookup with ⟨t', rfl, _⟩
    exact ⟨t', hStores.holds, hStores.ordered t' rfl⟩
  · intro key hMem hash uninit
    rcases exists_lookup_of_mem hMem with ⟨last, hLast⟩
    have hLookup := hStores.lookup_eq key
    rw [hLast] at hLookup
    rcases Option.bind_eq_some_iff.mp hLookup with ⟨t', rfl, hFound⟩
    have hFind := find_of_lookup hFound
    refine ⟨t'.depth key + 1, ?_⟩
    intro rounds hRounds
    have hHolds : TreeAt K root s t' := hStores.holds
    have hSame : hash = last ↔ some last = some hash := by
      rw [Option.some.injEq]
      exact eq_comm
    rw [hHolds.merkVerify_eq uninit hRounds, hFind, hLast, decide_eq_decide.mpr hSame]

/- The state that an insertion leaves. -/
def afterInsert (K : NodeHasher α) (root key : Word) (hash : α)
    (s : MerkleState α) : MerkleState α :=
  match merkInsert K root key hash s with
  | .ok (_, s') => s'
  | .error _ => s

theorem merkInsert_eq_afterInsert {hash : α} {code : Int}
    (hCode : (merkInsert K root key hash s).map Prod.fst = .ok code) :
    merkInsert K root key hash s = .ok (code, afterInsert K root key hash s) := by
  unfold afterInsert
  cases hInsert : merkInsert K root key hash s with
  | error fault =>
    rw [hInsert] at hCode
    cases hCode
  | ok result =>
    rw [hInsert] at hCode
    cases hCode
    rfl

/- Records as numbers; pages have even hashes. -/
def encodeRecords : List (Word × Nat) → Nat
| [] => 0
| (ptr, hash) :: rest => Nat.pair (Nat.pair ptr.toNat hash) (encodeRecords rest) + 1

def sampleHasher : NodeHasher Nat where
  sha256 records := 2 * encodeRecords records + 1
  zeros := 0

/- A backing store of two megabytes. -/
def sampleBacking : Backing where
  region := 0xffffffff40000000
  regionSize := 0x200000
  nextOffset := 0
  incBy := 0x101000

def sampleRoot : Word := 0x1000

def sampleStart : MerkleState Nat where
  mem _ := { ptr := 0, hash := 0, left := 0, right := 0 }
  alloc := { pages := fun _ => none, freeList := [], backing := sampleBacking }

theorem sampleBacking_dispensed : sampleBacking.Dispensed ∅ := by
  have hInit : pswapInit 0xffffffff40000000 0x200000 [1] = some sampleBacking := by
    unfold pswapInit
    rw [findCoprimeOf_cons [] (by decide)]
    decide
  exact pswapInit_dispensed hInit (by decide) (by decide) (by decide) (by decide) (by decide)

theorem built_sampleStart : Built sampleHasher sampleRoot [] sampleStart := by
  refine .empty ⟨rfl, rfl, rfl⟩ rfl rfl sampleBacking_dispensed ?_
  unfold Backing.InRegion
  decide

def sampleOne : MerkleState Nat := afterInsert sampleHasher sampleRoot 1 10 sampleStart

def sampleTwo : MerkleState Nat := afterInsert sampleHasher sampleRoot 2 20 sampleOne

def sampleThree : MerkleState Nat := afterInsert sampleHasher sampleRoot 1 30 sampleTwo

theorem built_sampleTwo : Built sampleHasher sampleRoot [(2, 20), (1, 10)] sampleTwo := by
  have hOne : merkInsert sampleHasher sampleRoot 1 10 sampleStart = .ok (0, sampleOne) :=
    merkInsert_eq_afterInsert (by decide +kernel)
  have hTwo : merkInsert sampleHasher sampleRoot 2 20 sampleOne = .ok (0, sampleTwo) :=
    merkInsert_eq_afterInsert (by decide +kernel)
  have hBuilt := built_sampleStart.insert 1 10 (by decide +kernel) hOne
  exact hBuilt.insert 2 20 (by decide +kernel) hTwo

theorem built_sampleThree :
    Built sampleHasher sampleRoot [(1, 30), (2, 20), (1, 10)] sampleThree := by
  have hThree : merkInsert sampleHasher sampleRoot 1 30 sampleTwo = .ok (0, sampleThree) :=
    merkInsert_eq_afterInsert (by decide +kernel)
  exact built_sampleTwo.insert 1 30 (by decide +kernel) hThree

/- The overwritten key has its last hash. -/
theorem merkle_lastWrite_sampleThree : ∃ enough, ∀ rounds, enough ≤ rounds →
    merkVerify sampleHasher sampleThree.mem sampleRoot 1
    30 (sampleThree.mem 0) rounds = some true :=
  (merkle_lastWrite built_sampleThree).2.2 1 (by decide) 30 (sampleThree.mem 0)

end Keystone
