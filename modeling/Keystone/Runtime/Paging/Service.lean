import Keystone.Runtime.Paging.Refinement

/-
  Faults that are served.

  If some page of the user is in memory, no search in the Merkle tree is too deep and there are
  backing pages left, the handler swaps the page in and the access goes on. If no page of the user
  is in memory, the handler finds nothing to evict and the enclave exits.
-/

----
-- Picking A Page
----

namespace Keystone.Eyrie

variable {α : Type} {C : PagingConfig α} {s : Paging α} {p q : PageNumber} {handed : Set Word}

theorem ok_bind {ε β γ : Type} (b : β) (f : β → Except ε γ) :
    ((Except.ok b : Except ε β) >>= f) = f b :=
  rfl

theorem except_bind_returns {ε β γ : Type} {x : Except ε β} {f : β → γ}
    (hReturns : ∃ b, x = .ok b) :
    ∃ c, (x >>= fun b => pure (f b)) = .ok c := by
  rcases hReturns with ⟨b, hOk⟩
  rw [hOk]
  exact ⟨f b, rfl⟩

theorem Paging.setPage_mem_self (s : Paging α) (page : Word) (data : PageData) :
    (s.setPage page data).vm.mem page = data :=
  Function.update_self _ _ _

theorem runtimeAssert_of {holds : Bool} (hHolds : holds = true) : runtimeAssert holds = .ok () :=
  if_pos hHolds

theorem pickPage_returns (hInv : PagingInv C s handed) (hReady : PagingReady C s)
    (hIn : s.InMemory C p) (random : Word) :
    ∃ target, pickPage C random s = .ok target ∧ target ≠ 0 := by
  rcases hReady.counted with ⟨pages, hPages, hCard⟩
  have hPos := Finset.card_pos.mpr ⟨p, (hPages p).mpr hIn⟩
  have hCount : 0 < s.userPageCount := by
    rw [BitVec.lt_def]
    change 0 < _
    omega
  have hDrawn : (random % s.userPageCount + 1).toNat =
      random.toNat % s.userPageCount.toNat + 1 := by
    have hLt := Nat.mod_lt random.toNat (Nat.lt_of_lt_of_eq hPos hCard.symm)
    have hOne : BitVec.toNat (1 : Word) = 1 := rfl
    rw [BitVec.toNat_add, BitVec.toNat_umod, hOne]
    omega
  refine ⟨traversePageTableAndPick C.layout s.vm (random % s.userPageCount + 1), ?_, ?_⟩
  · unfold pickPage
    rw [runtimeAssert_of (decide_eq_true hCount)]
    rfl
  · apply traversePageTableAndPick_found hInv.interior hInv.zero (fun p hp => (hPages p).mp hp)
    · intro hZero
      rw [hZero] at hDrawn
      exact absurd hDrawn (Nat.succ_ne_zero _).symm
    · have hLt := Nat.mod_lt random.toNat (Nat.lt_of_lt_of_eq hPos hCard.symm)
      omega

theorem pickPage_starved (hReady : PagingReady C s) (hNone : ∀ p, ¬ s.InMemory C p) (random : Word)
    : pickPage C random s = .error .assertion := by
  rcases hReady.counted with ⟨pages, hPages, hCard⟩
  have hEmpty : pages = ∅ := by
    apply Finset.eq_empty_of_forall_notMem
    intro p hp
    exact hNone p ((hPages p).mp hp)
  have hZero : s.userPageCount = 0 := by
    apply BitVec.eq_of_toNat_eq
    rw [hCard, hEmpty]
    rfl
  unfold pickPage
  rw [hZero]
  rfl

----
-- Swapping
----

open HashTree
open scoped WordOrder

variable {ch : Chosen α}

theorem pagingBackpageInbounds_of_page {b : Backing} {page : Word} (hPage : b.Page page)
    (hBound : b.region.toNat + b.regionSize.toNat < 2 ^ 64) :
    pagingBackpageInbounds b page = true := by
  apply decide_eq_true
  rcases hPage.inRegion with ⟨hLow, hHigh⟩
  rw [BitVec.le_def, BitVec.lt_def, BitVec.toNat_add]
  omega

theorem pswapPageoutCtr_old (hReady : PagingReady C s) (hInv : PagingInv C s handed)
    (hOut : s.Swapped C q) :
    pswapPageoutCtr ch (s.back C q) s = .ok (s.counterSlot (s.back C q), s) := by
  rcases hInv.back q hOut with ⟨hBack, hPtr, _⟩
  have hBounds := pagingBackpageInbounds_of_page (hInv.dispensed.page hBack) hReady.bound
  have hIndex := hReady.indirects _ hPtr
  unfold pswapPageoutCtr
  dsimp only
  rw [runtimeAssert_of hBounds, runtimeAssert_of (decide_eq_true hIndex)]
  exact if_pos hPtr

variable [DecidableEq α]

theorem pagingVerify_returns {key : Word} {hash : α} {t : Paging α} (hMerkle : t.merkle = s.merkle)
    (hHashed : C.pageHash = true → ∃ tree, HoldsTree C.hasher C.merkRoot s.merkle tree ∧
      depthOpt key tree ≤ ch.rounds ∧
      lookupOpt tree key = some hash) : pagingVerify C ch key hash t = .ok () := by
  unfold pagingVerify
  split
  · rename_i hHash
    rcases hHashed hHash with ⟨tree, hHolds, hRounds, hLookup⟩
    cases tree with
    | none => cases hLookup
    | some tree =>
      have hTree : TreeAt C.hasher C.merkRoot s.merkle
        tree := hHolds
      rw [hMerkle, hTree.merkVerify_eq ch.uninit hRounds, find_of_lookup hLookup]
      exact if_pos (decide_eq_true rfl)
  · rfl

theorem pagingInsert_returns {key : Word} {t : Paging α} (hash : α) (hMerkle : t.merkle = s.merkle)
    (hRoom : ¬ s.backing.Lacks merkMaxDepth)
    (hHashed : C.pageHash = true → ∃ handed tree, s.merkle.Sound C.merkRoot handed ∧
      HoldsTree C.hasher C.merkRoot s.merkle tree ∧
      depthOpt key tree ≤ merkMaxDepth - 1) : ∃ u, pagingInsert C key hash t = .ok u := by
  unfold pagingInsert
  split
  · rename_i hHash
    rcases hHashed hHash with ⟨handed, tree, hSound, hHolds, hDepth⟩
    have hSpec : merkInsert C.hasher C.merkRoot key hash s.merkle = .error .noBackingPage ∨ _ :=
      merkInsert_spec hSound hHolds hDepth
    rcases hSpec with hNone | ⟨m, _, hOk, _⟩
    · exact absurd (merkInsert_lacks hNone) hRoom
    · rw [hMerkle, hOk]
      exact ⟨_, rfl⟩
  · exact ⟨t, rfl⟩

/- What the handler asks for: a page to evict, a Merkle tree that is not too deep, and backing pages
   for its nodes. -/
structure Served (C : PagingConfig α) (s : Paging α) : Prop where
  resident : ∃ p, s.InMemory C p
  shallow : Shallow C s
  room : ¬ s.backing.Lacks merkMaxDepth

theorem pageSwapEpm_returns (hInv : PagingInv C s handed) (hReady : PagingReady C s)
    (hServed : Served C s) (hRounds : merkMaxDepth ≤ ch.rounds) (hIn : s.InMemory C p)
    (hOut : s.Swapped C q) :
    ∃ t, pageSwapEpm C ch (s.back C q) (s.frame C p) (s.back C q) s = .ok t := by
  rcases hInv.back q hOut with ⟨hBack, hPtr, _⟩
  have hPage := hInv.dispensed.page hBack
  have hBounds := pagingBackpageInbounds_of_page hPage hReady.bound
  have hVerify : ∀ t : Paging α, t.merkle = s.merkle → pagingVerify C ch (s.back C q)
      (C.pswapHash (s.contents C q) (s.vm.entry (s.counterSlot (s.back C q)))) t =
      .ok () := by
    intro t hMerkle
    apply pagingVerify_returns hMerkle
    intro hHash
    rcases hReady.hashed hHash with ⟨_, tree, _, hHolds, hLookup⟩
    have hDepth := hServed.shallow.depthOpt_le hHash hHolds (s.back C q)
    exact ⟨tree, hHolds, (hDepth.trans (Nat.sub_le _ _)).trans hRounds, hLookup q hOut⟩
  have hInsert : ∀ (t : Paging α) (hash : α), t.merkle = s.merkle →
      ∃ u, pagingInsert C (s.back C q) hash t = .ok u := by
    intro t hash hMerkle
    apply pagingInsert_returns hash hMerkle hServed.room
    intro hHash
    rcases hReady.hashed hHash with ⟨handed', tree, hSound, hHolds, _⟩
    exact ⟨handed', tree, hSound, hHolds, hServed.shallow.depthOpt_le hHash hHolds _⟩
  have hSame : s.back C q = 0 ∨ s.back C q = s.back C q := .inr rfl
  unfold pageSwapEpm
  dsimp only
  rw [runtimeAssert_of (hReady.frames p hIn).1, runtimeAssert_of hBounds,
    runtimeAssert_of (decide_eq_true hSame),
    ok_bind, ok_bind, ok_bind,
    pswapPageoutCtr_old hReady hInv hOut, ok_bind]
  -- the page that comes in has the hash it went out with
  have hData : C.cipher.decrypt (s.vm.entry (s.counterSlot (s.back C q))) (s.vm.mem (s.back C q)) =
      s.contents C q :=
    hOut.contents.symm
  rw [if_pos hPage.ne_zero, Paging.setPage_mem_self, hData, hVerify, ok_bind]
  · exact except_bind_returns (hInsert _ _ rfl)
  · rfl

----
-- Serving A Fault
----

variable {α : Type} [DecidableEq α] {C : PagingConfig α} {s : Paging α} {p q : PageNumber}
variable {handed : Set Word} {ch : Chosen α}

section

variable (hInv : PagingInv C s handed)
variable (hReady : PagingReady C s)
variable (hServed : Served C s)
variable (hRounds : merkMaxDepth ≤ ch.rounds)
include hInv hReady hServed hRounds

theorem pagingEvictAndFreeOne_returns (hOut : s.Swapped C q) :
    ∃ frame t, pagingEvictAndFreeOne C ch (s.back C q) s = .ok (frame, t) ∧ frame ≠ 0 := by
  rcases hServed.resident with ⟨p, hIn⟩
  rcases pickPage_returns hInv hReady hIn ch.random with ⟨target, hPick, hFound⟩
  have hTarget := pickPage_inMemory hInv hPick hFound
  have hPage := hInv.dispensed.page (hInv.back q hOut).1
  have hBounds := pagingBackpageInbounds_of_page hPage hReady.bound
  rcases hTarget.1.slot with ⟨slot, hSlot, hEntry⟩
  have hUser : s.vm.entry slot &&& pteU ≠ 0 := by
    rw [hEntry]
    exact hTarget.1
  rcases pageSwapEpm_returns hInv hReady hServed hRounds hTarget hOut with ⟨t, hSwap⟩
  have hDest : evictDestination (s.back C q) s = .ok (s.back C q, s) := if_pos hPage.ne_zero
  have hRun : ∃ u, pagingEvictAndFreeOne C ch (s.back C q) s =
      .ok (ptePpn (s.pte C (pageOf (vpn target))) <<< pageBits, u) := by
    unfold pagingEvictAndFreeOne
    rw [hPick, ok_bind, if_neg hFound, hDest, ok_bind]
    dsimp only
    rw [runtimeAssert_of hBounds, ok_bind, pteOfVa_eq hSlot, orAssertion, ok_bind,
      runtimeAssert_of (decide_eq_true hUser),
      ok_bind, hEntry]
    change ∃ u, Except.bind (pageSwapEpm C ch (s.back C q)
      (s.frame C (pageOf (vpn target))) (s.back C q) s) _ = _
    rw [hSwap]
    exact ⟨_, rfl⟩
  rcases hRun with ⟨u, hRun⟩
  exact ⟨_, u, hRun, (hReady.frames _ hTarget).2⟩

theorem pagingHandlePageFault_returns {v : Word}
    (hOut : s.Swapped C (pageOf (vpn v))) (hLow : v < eyrieLoadStart) :
    ∃ u, pagingHandlePageFault C ch v s = .ok u := by
  rcases hOut.1.slot with ⟨slot, hSlot, hEntry⟩
  have hPage := hInv.dispensed.page (hInv.back _ hOut).1
  have hBounds := pagingBackpageInbounds_of_page hPage hReady.bound
  rcases pagingEvictAndFreeOne_returns hInv hReady hServed
    hRounds hOut with ⟨frame, t, hEvict, hFrame⟩
  -- the entry of the page is still one of the user
  have hUser : t.vm.entry slot &&& pteU ≠ 0 := by
    rcases evict_cases hInv (fun _ => ⟨pageOf (vpn v), hOut, rfl⟩) hEvict with
      ⟨hZero, _⟩ | ⟨p, dest, handed', hEvicted, _⟩
    · exact absurd hZero hFrame
    · rw [← pteOf_of_slot ((hEvicted.slotOf _).trans hSlot)]
      exact (hEvicted.isUser_iff _).mpr hOut.1
  unfold pagingHandlePageFault
  rw [if_neg (BitVec.not_le.mpr hLow), pteOfVa_eq hSlot]
  dsimp only
  rw [hEntry, if_neg (not_not.mpr hOut.2)]
  change ∃ u, (if s.back C (pageOf (vpn v)) = 0 then _ else _) = _
  rw [if_neg hPage.ne_zero]
  change ∃ u, Except.bind (orExit (runtimeAssert (pagingBackpageInbounds s.backing
      (s.back C (pageOf (vpn v)))))) _ = _
  rw [runtimeAssert_of hBounds]
  change ∃ u, Except.bind (orExit (pagingEvictAndFreeOne C ch (s.back C (pageOf (vpn v))) s)) _ = _
  rw [hEvict]
  change ∃ u, (if frame = 0 then _ else _) = _
  rw [if_neg hFrame, runtimeAssert_of (decide_eq_true hUser)]
  exact ⟨_, rfl⟩

end

theorem pagingHandlePageFault_starved {v : Word} {u : Paging α} (hReady : PagingReady C s)
    (hNone : ∀ p, ¬ s.InMemory C p) (hUser : s.IsUser C (pageOf (vpn v))) :
    pagingHandlePageFault C ch v s ≠ .ok u := by
  intro hRun
  rcases hUser.slot with ⟨slot, hSlot, hEntry⟩
  unfold pagingHandlePageFault at hRun
  rw [pteOfVa_eq hSlot] at hRun
  dsimp only at hRun
  split at hRun
  · cases hRun
  split at hRun
  · cases hRun
  split at hRun
  · cases hRun
  rcases bind_ok hRun with ⟨_, _, hRun⟩
  rcases bind_ok hRun with ⟨_, hEvict, _⟩
  have hPick := orExit_ok hEvict
  unfold pagingEvictAndFreeOne at hPick
  rw [pickPage_starved hReady hNone] at hPick
  cases hPick

----
-- Serving A Load
----

variable {α : Type} [DecidableEq α] {C : PagingConfig α} {s : Paging α} {m : FlatMemory} {v : Word}
variable {handed : Set Word} {ch : Chosen α}

theorem pagingAccess_returns (hInv : PagingInv C s handed) (hReady : PagingReady C s)
    (hServed : s.InMemory C (pageOf (vpn v)) ∨ Served C s) (hRounds : merkMaxDepth ≤ ch.rounds)
    (hUser : s.UserVa C v) (hRead : s.pte C (pageOf (vpn v)) &&& pteR ≠ 0)
    (hLow : v < eyrieLoadStart) : ∃ t, pagingAccess C ch pteR v s = .ok t := by
  unfold pagingAccess
  by_cases hIn : s.InMemory C (pageOf (vpn v))
  · rw [if_pos ⟨hIn.2, hRead⟩]
    exact ⟨s, rfl⟩
  · have hOut := (Paging.isUser_cases hUser.2).resolve_left hIn
    rcases pagingHandlePageFault_returns hInv hReady
      (hServed.resolve_left hIn) hRounds hOut hLow with
      ⟨u, hFault⟩
    rcases pagingHandlePageFault_spec hInv hUser.2 hFault with ⟨p, _, _, hRecorded⟩
    have hExchanged := hRecorded.exchanged
    rw [← hExchanged.readable] at hRead
    rw [if_neg fun hBoth => hBoth.1 hOut.2, hFault,
      ok_bind, if_pos ⟨hExchanged.inMemory.2, hRead⟩]
    exact ⟨u, rfl⟩

theorem userLoad_returns (hInv : PagingInv C s handed) (hReady : PagingReady C s)
    (hShows : Shows C s m) (hServed : s.InMemory C (pageOf (vpn v)) ∨ Served C s)
    (hRounds : merkMaxDepth ≤ ch.rounds) (hUser : s.UserVa C v)
    (hRead : s.pte C (pageOf (vpn v)) &&& pteR ≠ 0) (hLow : v < eyrieLoadStart) :
    ∃ t, userLoad C ch v s = .ok (m v, t) := by
  rcases pagingAccess_returns hInv hReady hServed hRounds hUser hRead hLow with ⟨t, hAccess⟩
  have hLoad : userLoad C ch v s = .ok (pageByte (t.vm.mem (t.frame C (pageOf (vpn v)))) v, t) := by
    unfold userLoad
    rw [hAccess]
    rfl
  refine ⟨t, ?_⟩
  rw [← (userLoad_spec hInv hShows hUser hLoad).1]
  exact hLoad

theorem userLoad_starved {b : BitVec 8} {t : Paging α} (hReady : PagingReady C s)
    (hNone : ∀ p, ¬ s.InMemory C p) (hUser : s.UserVa C v) : userLoad C ch v s ≠ .ok (b, t) := by
  intro hRun
  rcases bind_ok hRun with ⟨u, hAccess, _⟩
  unfold pagingAccess at hAccess
  dsimp only at hAccess
  split at hAccess
  · rename_i hValid
    exact hNone _ ⟨hUser.2, hValid.1⟩
  · rcases bind_ok hAccess with ⟨_, hFault, _⟩
    exact pagingHandlePageFault_starved hReady hNone hUser.2 hFault

end Keystone.Eyrie
