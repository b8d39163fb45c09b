import Keystone.Runtime.Merkle.Node

/-
  The backing pages that the Merkle tree needs.

  A call that returns has taken at most one backing page for each node that it allocated. A call
  that fails for lack of a backing page has found the store exhausted.
-/

----
-- Taking Pages
----

namespace Keystone

variable {b b' : Backing} {pages pages' : Nat} {a a' : MerkleAlloc} {page node : Word}

/- At most so many more pages have been handed out. -/
def Backing.Spends (b : Backing) (pages : Nat) (b' : Backing) : Prop :=
  ∀ inc n taken, b.Stepped inc n taken → ∃ taken', taken ≤ taken' ∧ taken' ≤ taken + pages ∧
      taken' < n ∧ b' = b.advance inc n taken'

/- So many pages are not left. -/
def Backing.Lacks (b : Backing) (pages : Nat) : Prop :=
  ∀ inc n taken, b.Stepped inc n taken → n ≤ taken + pages

theorem Backing.Spends.refl (b : Backing) : b.Spends 0 b := by
  intro inc n taken hStepped
  exact ⟨taken, le_rfl, le_rfl, hStepped.taken_lt, hStepped.strides.advance_self.symm⟩

theorem Backing.Spends.mono (hSpends : b.Spends pages b') (hLe : pages ≤ pages') :
    b.Spends pages' b' := by
  intro inc n taken hStepped
  rcases hSpends inc n taken hStepped with ⟨taken', hMore, hAtMost, hLt, hEq⟩
  exact ⟨taken', hMore, by omega, hLt, hEq⟩

theorem Backing.Spends.trans {a c : Backing} (hFirst : a.Spends pages b)
    (hSecond : b.Spends pages' c) : a.Spends (pages + pages') c := by
  intro inc n taken hStepped
  rcases hFirst inc n taken hStepped with ⟨taken₁, hMore₁, hAtMost₁, hLt₁, hEq₁⟩
  have hNext : b.Stepped inc n taken₁ := by
    rw [hEq₁]
    exact hStepped.advance hLt₁
  rcases hSecond inc n taken₁ hNext with ⟨taken₂, hMore₂, hAtMost₂, hLt₂, hEq₂⟩
  refine ⟨taken₂, by omega, by omega, hLt₂, ?_⟩
  rw [hEq₂, hEq₁]
  rfl

theorem pagingAllocBackingPage_spends (hRun : pagingAllocBackingPage b = .ok (page, b')) :
    b.Spends 1 b' := by
  intro inc n taken hStepped
  have hTaken := hStepped.taken_lt
  by_cases hLast : taken + 1 = n
  · rw [hStepped.strides.alloc_last hLast] at hRun
    cases hRun
    exact ⟨taken, le_rfl, Nat.le_succ _, hTaken, hStepped.strides.advance_self.symm⟩
  · rw [hStepped.strides.alloc_next (by omega)] at hRun
    cases hRun
    exact ⟨taken + 1, Nat.le_succ _, le_rfl, by omega, rfl⟩

theorem Backing.Spends.lacks (hSpends : b.Spends pages b') (hLacks : b'.Lacks pages') :
    b.Lacks (pages + pages') := by
  intro inc n taken hStepped
  rcases hSpends inc n taken hStepped with ⟨taken', _, hAtMost, hLt, hEq⟩
  have hNext : b'.Stepped inc n taken' := by
    rw [hEq]
    exact hStepped.advance hLt
  have hBound := hLacks inc n taken' hNext
  omega

theorem Backing.Lacks.mono (hLacks : b.Lacks pages) (hLe : pages ≤ pages') : b.Lacks pages' := by
  intro inc n taken hStepped
  have hBound := hLacks inc n taken hStepped
  omega

theorem pagingAllocBackingPage_lacks (hRun : pagingAllocBackingPage b = .ok (0, b')) :
    b.Lacks 1 := by
  intro inc n taken hStepped
  by_contra hMore
  rw [hStepped.strides.alloc_next (by omega)] at hRun
  simp only [Except.ok.injEq, Prod.mk.injEq] at hRun
  exact (hStepped.page_pageAt taken).ne_zero hRun.1

----
-- Nodes
----

theorem merkSkipFull_backing (pages : List Word) (a : MerkleAlloc) :
    (merkSkipFull pages a).backing = a.backing := by
  induction pages generalizing a with
  | nil => rfl
  | cons page rest ih =>
    unfold merkSkipFull
    split
    · rw [ih]
      rfl
    · rfl

theorem merkReserveNodeInPage_backing (hRun : merkReserveNodeInPage a page = .ok (node, a')) :
    a'.backing = a.backing := by
  unfold merkReserveNodeInPage at hRun
  dsimp only at hRun
  split at hRun
  · cases hRun
    rfl
  · split at hRun
    · cases hRun
      rfl
    · rcases bind_ok hRun with ⟨_, _, hRest⟩
      cases hRest
      rfl

theorem merkAllocNode_spends (hRun : merkAllocNode a = .ok (node, a')) :
    a.backing.Spends 1 a'.backing := by
  unfold merkAllocNode at hRun
  dsimp only at hRun
  rw [← merkSkipFull_backing a.freeList a]
  split at hRun
  · rw [merkReserveNodeInPage_backing hRun]
    exact (Backing.Spends.refl _).mono (Nat.le_succ 0)
  · rcases bind_ok hRun with ⟨⟨page, b⟩, hPage, hRest⟩
    rw [merkReserveNodeInPage_backing hRest]
    rcases bind_ok hPage with ⟨⟨page', backing⟩, hAlloc, hNew⟩
    dsimp only at hNew
    split at hNew
    · cases hNew
    · cases hNew
      exact pagingAllocBackingPage_spends hAlloc

theorem merkFreeNode_backing (hRun : merkFreeNode a node = .ok a') : a'.backing = a.backing := by
  rcases bind_ok hRun with ⟨_, _, hRun⟩
  rcases bind_ok hRun with ⟨_, _, hRun⟩
  dsimp only at hRun
  split at hRun
  · cases hRun
    rfl
  · cases hRun
    rfl

theorem runtimeAssert_bind_error {β : Type} {holds : Bool} {f : Unit → Except RuntimeFault β}
    (hRun : (runtimeAssert holds >>= f) = .error .noBackingPage) :
    f () = .error .noBackingPage := by
  unfold runtimeAssert at hRun
  split at hRun
  · exact hRun
  · cases hRun

theorem merkReserveNodeInPage_ne_error (a : MerkleAlloc) (page : Word) :
    merkReserveNodeInPage a page ≠ .error .noBackingPage := by
  intro hRun
  unfold merkReserveNodeInPage at hRun
  dsimp only at hRun
  split at hRun
  · cases hRun
  · split at hRun
    · cases hRun
    · have hRest := runtimeAssert_bind_error hRun
      cases hRest

theorem merkAllocNode_lacks (hRun : merkAllocNode a = .error .noBackingPage) :
    a.backing.Lacks 1 := by
  unfold merkAllocNode at hRun
  dsimp only at hRun
  rw [← merkSkipFull_backing a.freeList a]
  split at hRun
  · exact absurd hRun (merkReserveNodeInPage_ne_error _ _)
  · generalize merkSkipFull a.freeList a = a' at hRun ⊢
    cases hAlloc : pagingAllocBackingPage a'.backing with
    | error fault =>
      exfalso
      unfold merkAllocPage at hRun
      rw [hAlloc] at hRun
      unfold pagingAllocBackingPage at hAlloc
      dsimp only at hAlloc
      split at hAlloc
      · cases hAlloc
      · cases hRun
        have hRest := runtimeAssert_bind_error hAlloc
        cases hRest
    | ok result =>
      rcases result with ⟨page, b⟩
      by_cases hZero : page = 0
      · rw [hZero] at hAlloc
        exact pagingAllocBackingPage_lacks hAlloc
      · exfalso
        have hPage : merkAllocPage a' = .ok (page, { a' with backing := b }.setHeader
            page freshPage) := by
          unfold merkAllocPage
          rw [hAlloc]
          exact if_neg hZero
        rw [hPage] at hRun
        exact merkReserveNodeInPage_ne_error _ _ hRun

theorem merkFreeNode_ne_error (a : MerkleAlloc) (node : Word) :
    merkFreeNode a node ≠ .error .noBackingPage := by
  intro hRun
  have hRest := runtimeAssert_bind_error (runtimeAssert_bind_error hRun)
  dsimp only at hRest
  split at hRest
  · cases hRest
  · cases hRest

----
-- Insertions
----

variable {α : Type} {K : NodeHasher α} {s s' : MerkleState α}
variable {leaf newNode nodePtr root key : Word}
variable {ret : Int} {nodeIdx : Bool} {above : List Word}

theorem merkSpliceNode_spends {ret : Word} (hRun : merkSpliceNode K leaf node s = .ok (ret, s')) :
    s.alloc.backing.Spends 1 s'.alloc.backing := by
  unfold merkSpliceNode at hRun
  split at hRun
  · rcases bind_ok hRun with ⟨a, hFree, hRest⟩
    cases hRest
    rw [merkFreeNode_backing hFree]
    exact (Backing.Spends.refl _).mono (Nat.le_succ 0)
  · rcases bind_ok hRun with ⟨⟨parent, a⟩, hAlloc, hRest⟩
    dsimp only at hRest
    split at hRest
    · cases hRest
      exact merkAllocNode_spends hAlloc
    · cases hRest
      exact merkAllocNode_spends hAlloc

theorem merkSpliceNode_lacks (hRun : merkSpliceNode K leaf node s = .error .noBackingPage) :
    s.alloc.backing.Lacks 1 := by
  unfold merkSpliceNode at hRun
  split at hRun
  · exfalso
    cases hFree : merkFreeNode s.alloc leaf with
    | error fault =>
      rw [hFree] at hRun
      cases hRun
      exact merkFreeNode_ne_error _ _ hFree
    | ok a =>
      rw [hFree] at hRun
      cases hRun
  · cases hAlloc : merkAllocNode s.alloc with
    | error fault =>
      rw [hAlloc] at hRun
      cases hRun
      exact merkAllocNode_lacks hAlloc
    | ok result =>
      exfalso
      rw [hAlloc] at hRun
      dsimp only [bind, Except.bind] at hRun
      split at hRun
      · cases hRun
      · cases hRun

variable {currNode : MerkleNode α}

theorem merkAttach_spends {ptr : Word} {parent curr parent' : MerkleNode α}
    (hRun : merkAttach K newNode nodePtr nodeIdx currNode parent s = .ok (ptr, curr, parent', s')) :
    s.alloc.backing.Spends 1 s'.alloc.backing := by
  unfold merkAttach at hRun
  split at hRun
  · rcases bind_ok hRun with ⟨⟨ptr', t⟩, hSplice, hEnd⟩
    cases hEnd
    exact merkSpliceNode_spends hSplice
  · cases hRun
    exact (Backing.Spends.refl _).mono (Nat.le_succ 0)

theorem merkAttach_lacks {parent : MerkleNode α}
    (hRun : merkAttach K newNode nodePtr nodeIdx currNode parent s = .error .noBackingPage) :
    s.alloc.backing.Lacks 1 := by
  unfold merkAttach at hRun
  split at hRun
  · cases hSplice : merkSpliceNode K nodePtr newNode s with
    | error fault =>
      rw [hSplice] at hRun
      cases hRun
      exact merkSpliceNode_lacks hSplice
    | ok result =>
      rw [hSplice] at hRun
      cases hRun
  · cases hRun

theorem merkWalk_length (mem : Word → MerkleNode α) (key node : Word) (above : List Word)
    (steps : Nat) : (merkWalk mem key steps node above).2.length ≤ above.length + steps := by
  induction steps generalizing node above with
  | zero => exact le_rfl
  | succ steps ih =>
    unfold merkWalk
    dsimp only
    split
    · exact Nat.le_add_right _ _
    · have hLength := ih ((mem node).child (!decide (key < (mem node).ptr))) (node :: above)
      rw [List.length_cons] at hLength
      omega

variable [DecidableEq α]

theorem merkClimb_spends (hRun : merkClimb K root newNode nodePtr above currNode s = .ok (ret, s'))
    : s.alloc.backing.Spends above.length s'.alloc.backing := by
  induction above generalizing nodePtr currNode s with
  | nil =>
    cases hRun
    exact Backing.Spends.refl _
  | cons parentPtr above ih =>
    rw [List.length_cons, Nat.add_comm]
    unfold merkClimb at hRun
    dsimp only at hRun
    split at hRun
    · cases hRun
      exact (Backing.Spends.refl _).mono (Nat.zero_le _)
    · rcases bind_ok hRun with ⟨⟨ptr, curr, parent, t⟩, hAttach, hRest⟩
      rcases bind_ok hRest with ⟨_, _, hClimb⟩
      have hRest := ih hClimb
      exact (merkAttach_spends hAttach).trans hRest

theorem merkClimb_lacks
    (hRun : merkClimb K root newNode nodePtr above currNode s = .error .noBackingPage) :
    s.alloc.backing.Lacks above.length := by
  induction above generalizing nodePtr currNode s with
  | nil => cases hRun
  | cons parentPtr above ih =>
    rw [List.length_cons, Nat.add_comm]
    unfold merkClimb at hRun
    dsimp only at hRun
    split at hRun
    · cases hRun
    · cases hAttach : merkAttach K newNode nodePtr ((s.mem parentPtr).nodeIdx nodePtr) currNode
          (s.mem parentPtr) s with
      | error fault =>
        rw [hAttach] at hRun
        cases hRun
        exact (merkAttach_lacks hAttach).mono (Nat.le_add_right 1 _)
      | ok result =>
        rcases result with ⟨ptr, curr, parent, t⟩
        rw [hAttach] at hRun
        have hRest := ih (runtimeAssert_bind_error hRun)
        exact (merkAttach_spends hAttach).lacks hRest

theorem merkInsert_spends {hash : α} (hRun : merkInsert K root key hash s = .ok (ret, s')) :
    s.alloc.backing.Spends merkMaxDepth s'.alloc.backing := by
  rcases bind_ok hRun with ⟨⟨newNode, a⟩, hAlloc, hRest⟩
  have hFirst := merkAllocNode_spends hAlloc
  dsimp only at hRest
  split at hRest
  · cases hRest
    exact hFirst.mono (by decide)
  · have hClimb := merkClimb_spends hRest
    have hLength := merkWalk_length (({ s with alloc := a }).write newNode
        { ptr := key, hash := hash, left := 0, right := 0 }).mem key root [] (merkMaxDepth - 1)
    exact hFirst.trans (hClimb.mono hLength)

theorem merkInsert_lacks {hash : α} (hRun : merkInsert K root key hash s = .error .noBackingPage) :
    s.alloc.backing.Lacks merkMaxDepth := by
  unfold merkInsert at hRun
  cases hAlloc : merkAllocNode s.alloc with
  | error fault =>
    rw [hAlloc] at hRun
    cases hRun
    exact (merkAllocNode_lacks hAlloc).mono (by decide)
  | ok result =>
    rcases result with ⟨newNode, a⟩
    have hFirst := merkAllocNode_spends hAlloc
    rw [hAlloc] at hRun
    dsimp only [bind, Except.bind] at hRun
    split at hRun
    · cases hRun
    · have hClimb := merkClimb_lacks hRun
      have hLength := merkWalk_length (({ s with alloc := a }).write newNode
          { ptr := key, hash := hash, left := 0, right := 0 }).mem key root []
        (merkMaxDepth - 1)
      exact hFirst.lacks (hClimb.mono hLength)

end Keystone
