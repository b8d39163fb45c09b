import Keystone.Runtime.Paging.Swap
import Keystone.Runtime.Paging.Traversal

/-
  The places of pages, and evictions.

  Every page of the user has one place: a frame, or a page of the backing store. No two of them
  share a place. What the user sees of a page is the frame, or the decrypted backing page. An
  eviction moves a page to another place and does not change what the user sees.

  Main declarations:
  * `PagingInv`: what every step keeps
  * `PagingInv.moved`: pages that move to other places
  * `evict_cases`: an eviction has found no page, or has moved one to the backing store
-/

----
-- Places
----

namespace Keystone.Eyrie

variable {α : Type} (C : PagingConfig α)

variable (s : Paging α) (p : PageNumber)

/- The backing page of a page that is not in memory. -/
def Paging.back : Word :=
  pagingVa C (ptePpn (s.pte C p) <<< pageBits)

def Paging.InMemory : Prop := s.IsUser C p ∧ s.pte C p &&& pteV ≠ 0

def Paging.Swapped : Prop := s.IsUser C p ∧ s.pte C p &&& pteV = 0

/- Where a page of the user is. -/
def Paging.place : Word :=
  if s.pte C p &&& pteV ≠ 0 then s.frame C p
  else s.back C p

/- What the user sees of a page. -/
def Paging.contents : PageData :=
  if s.pte C p &&& pteV ≠ 0 then s.vm.mem (s.frame C p)
  else
    C.cipher.decrypt (s.counter (s.back C p)) (s.vm.mem (s.back C p))

/- A page that holds no part of the table, of the backing store or of the user. -/
def Paging.Unused (page : Word) : Prop :=
  ¬ s.backing.InRegion page ∧ ¬ TablePage C.layout s.vm page ∧
    ∀ p, s.InMemory C p → s.frame C p ≠ page

/- What every step keeps: the table, the backing pages that have been handed out with the counters
   among them, and the places of the pages. No page of the user is at address zero. -/
structure PagingInv (handed : Set Word) : Prop where
  apart : RadixTable.Apart (pointsTo C.layout) s.vm.mem s.vm.root ptLevels
  interior : Interior C.layout s.vm
  zero : s.pte C 0 &&& pteU = 0
  dispensed : s.backing.Dispensed handed
  counters : CounterInv s handed
  table : ∀ n, TablePage C.layout s.vm n → ¬ s.backing.InRegion n
  frame : ∀ p, s.InMemory C p → ¬ s.backing.InRegion (s.frame C p) ∧
        ¬ TablePage C.layout s.vm (s.frame C p)
  back : ∀ p, s.Swapped C p → s.back C p ∈ handed ∧ s.counterPtr (s.back C p) ≠ 0 ∧
        ∀ i, s.ctrIndirectPtrs i ≠ 0 → s.ctrIndirectPtrs i ≠ s.back C p
  single : ∀ p q, s.IsUser C p → s.IsUser C q → s.place C p = s.place C q → p = q
  free : ∀ page ∈ s.vm.free, s.Unused C page

variable {C} {s t : Paging α} {p q : PageNumber}

theorem Paging.isUser_cases (hUser : s.IsUser C p) : s.InMemory C p ∨ s.Swapped C p := by
  by_cases hValid : s.pte C p &&& pteV = 0
  · exact .inr ⟨hUser, hValid⟩
  · exact .inl ⟨hUser, hValid⟩

theorem Paging.InMemory.place (hIn : s.InMemory C p) : s.place C p = s.frame C p := if_pos hIn.2

theorem Paging.InMemory.contents (hIn : s.InMemory C p) : s.contents C p = s.vm.mem (s.frame C p) :=
  if_pos hIn.2

theorem Paging.Swapped.place (hOut : s.Swapped C p) : s.place C p = s.back C p :=
  if_neg (not_not.mpr hOut.2)

theorem Paging.Swapped.contents (hOut : s.Swapped C p) : s.contents C p =
    C.cipher.decrypt (s.counter (s.back C p)) (s.vm.mem (s.back C p)) :=
  if_neg (not_not.mpr hOut.2)

theorem Paging.InMemory.ne (hIn : s.InMemory C p) (hOut : s.Swapped C q) : p ≠ q := by
  rintro rfl
  exact hIn.2 hOut.2

/- No two pages have one frame, or one page of the backing store. -/
theorem PagingInv.frame_ne (hInv : PagingInv C s handed)
    (hp : s.InMemory C p)
    (hq : s.InMemory C q)
    (hNe : q ≠ p) :
    s.frame C q ≠ s.frame C p := by
  intro hEq
  apply hNe
  apply hInv.single q p hq.1 hp.1
  rw [hq.place, hp.place, hEq]

theorem PagingInv.back_ne (hInv : PagingInv C s handed)
    (hp : s.Swapped C p)
    (hq : s.Swapped C q)
    (hNe : q ≠ p) :
    s.back C q ≠ s.back C p := by
  intro hEq
  apply hNe
  apply hInv.single q p hq.1 hp.1
  rw [hq.place, hp.place, hEq]

theorem pteCreateInvalid_user (ppn pte : Word) :
    pteCreateInvalid ppn (pte &&& pteFlagMask) &&& pteU = pte &&& pteU := by
  rw [pteCreateInvalid_and _ _ _ (by decide), BitVec.and_assoc, BitVec.and_assoc]
  rfl

theorem pteCreateInvalid_valid (ppn pte : Word) :
    pteCreateInvalid ppn (pte &&& pteFlagMask) &&& pteV = 0 := by
  rw [pteCreateInvalid_and _ _ _ (by decide), BitVec.and_assoc]
  exact BitVec.and_zero

theorem pteCreate_user (ppn pte : Word) : pteCreate ppn (pte &&& pteFlagMask) &&& pteU =
    pte &&& pteU := by
  rw [pteCreate_and _ _ _ (by decide), BitVec.and_comm,
    BitVec.and_or_distrib_left, BitVec.and_comm pteU,
    BitVec.and_comm pteU, BitVec.and_assoc]
  exact BitVec.zero_or

theorem pagingVa_pagingPa (C : PagingConfig α) (x : Word) : pagingVa C (pagingPa C x) = x := by
  rw [pagingVa, pagingPa, BitVec.add_sub_cancel, BitVec.sub_add_cancel]

theorem pagingPa_aligned (C : PagingConfig α) {page : Word} (hAligned : page.toNat % 4096 = 0) :
    (pagingPa C page).toNat % 4096 = 0 := by
  have hLoad := C.aligned
  have hStart : eyriePagingStart.toNat % 4096 = 0 := by
    decide
  unfold pagingPa
  rw [BitVec.toNat_add, BitVec.toNat_sub]
  omega

theorem pagingVa_pteCreateInvalid (C : PagingConfig α) {page : Word} (type : Word)
    (hAligned : page.toNat % 4096 = 0) :
    pagingVa C (ptePpn (pteCreateInvalid (ppn (pagingPa C page)) type) <<< pageBits) = page := by
  rw [ptePpn_pteCreateInvalid, ppn_shift (pagingPa_aligned C hAligned), pagingVa_pagingPa]

----
-- Evictions
----

variable {C : PagingConfig α} {handed : Set Word}

/- A page `p` has been evicted to the backing page `dest`. The other pages are where they were, but
   for one that was at `dest`: it is in the frame of `p` now. -/
structure Evicted (C : PagingConfig α) (s t : Paging α) (p : PageNumber) (dest swap frame : Word)
    (handed handed' : Set Word) : Prop where
  target : s.InMemory C p
  frame_eq : frame = ptePpn (s.pte C p) <<< pageBits
  pte : t.pte C p = pteCreateInvalid (ppn (pagingPa C dest)) (s.pte C p &&& pteFlagMask)
  other : ∀ q ≠ p, t.pte C q = s.pte C q
  slotOf : ∀ q, t.vm.slotOf C.layout q = s.vm.slotOf C.layout q
  node : ∀ r, r.length < ptLevels → t.vm.node C.layout r = s.vm.node C.layout r
  upper : ∀ r n j, r.length + 1 < ptLevels → s.vm.node C.layout r = some n →
        t.vm.mem n j = s.vm.mem n j
  sub : handed ⊆ handed'
  dispensed : t.backing.Dispensed handed'
  region : s.backing.SameRegion t.backing
  counters : CounterInv t handed'
  dest_handed : dest ∈ handed'
  dest_fresh : swap = 0 → dest ∉ handed
  dest_swap : swap ≠ 0 → dest = swap
  stored : C.cipher.decrypt (t.counter dest) (t.vm.mem dest) = s.contents C p
  ptr : t.counterPtr dest ≠ 0
  ptrs : ∀ i, t.ctrIndirectPtrs i ≠ 0 → t.ctrIndirectPtrs i ≠ dest
  swapped : ∀ q, s.Swapped C q → s.back C q = swap → t.vm.mem (s.frame C p) = s.contents C q
  memory : ∀ q ≠ p, s.InMemory C q → t.vm.mem (s.frame C q) = s.vm.mem (s.frame C q)
  backs : ∀ q, s.Swapped C q → s.back C q ≠ dest → t.vm.mem (s.back C q) = s.vm.mem (s.back C q) ∧
        t.counter (s.back C q) = s.counter (s.back C q) ∧
        t.counterPtr (s.back C q) ≠ 0 ∧
        ∀ i, t.ctrIndirectPtrs i ≠ 0 → t.ctrIndirectPtrs i ≠ s.back C q
  free : t.vm.free = s.vm.free

/- The backing page that is written, and the state once it is known. -/
structure DestReady (s s₀ : Paging α) (dest swap : Word) (handed handed₀ : Set Word) : Prop where
  vm : s₀.vm = s.vm
  ptrs : s₀.ctrIndirectPtrs = s.ctrIndirectPtrs
  sub : handed ⊆ handed₀
  dispensed : s₀.backing.Dispensed handed₀
  region : s.backing.SameRegion s₀.backing
  mem : dest ∈ handed₀
  fresh : swap = 0 → dest ∉ handed
  same : swap ≠ 0 → dest = swap
  count : s₀.userPageCount = s.userPageCount
  merkle : s₀.merkle = (s.setBacking s₀.backing).merkle
  grows : s.backing.Grows s₀.backing

variable {dest swap : Word} {s₀ u : Paging α} {handed' handed₀ : Set Word}

theorem destReady (hInv : PagingInv C s handed) (hSwap : swap ≠ 0 → swap ∈ handed)
    (hDest : evictDestination swap s = .ok (dest, s₀))
    (hBounds : pagingBackpageInbounds s₀.backing dest = true) :
    ∃ handed₀, DestReady s s₀ dest swap handed handed₀ := by
  unfold evictDestination at hDest
  split at hDest
  · rename_i hNonzero
    cases hDest
    exact ⟨handed, rfl, rfl, Set.Subset.refl _, hInv.dispensed, ⟨rfl, rfl⟩, hSwap hNonzero,
      fun hZero => absurd hZero hNonzero, fun _ => rfl, rfl,
      rfl, Backing.Grows.refl _⟩
  · rename_i hZero
    rcases bind_ok hDest with ⟨⟨page, b⟩, hAlloc, hRest⟩
    cases hRest
    have hGrows := (pagingAllocBackingPage_spends hAlloc).grows
    rcases pagingAllocBackingPage_spec hInv.dispensed with
      hNone | ⟨page', b', hOk, _, hFresh, hNext, hSame⟩
    · -- without a backing page the assertion fails
      rw [hNone] at hAlloc
      cases hAlloc
      exfalso
      rcases hInv.dispensed with ⟨_, _, _, hStepped, _⟩
      have hHigh := hStepped.region_high
      have hLow := (of_decide_eq_true hBounds).1
      change s.backing.region.toNat ≤ 0 at hLow
      omega
    · rw [hOk] at hAlloc
      cases hAlloc
      exact ⟨insert dest handed, rfl, rfl, Set.subset_insert _ _, hNext, hSame,
        Set.mem_insert _ _, fun _ => hFresh,
        fun hNonzero => absurd hNonzero hZero, rfl, rfl,
        hGrows⟩

theorem DestReady.inRegion (hReady : DestReady s s₀ dest swap handed handed₀) :
    s.backing.InRegion dest := by
  rw [← hReady.region.inRegion_iff]
  exact (hReady.dispensed.page hReady.mem).inRegion

theorem DestReady.counter_eq (hReady : DestReady s s₀ dest swap handed handed₀)
    (page : Word) :
    s₀.counter page = s.counter page := by
  unfold Paging.counter
  rw [Paging.counterSlot_congr hReady.ptrs hReady.region, hReady.vm]

theorem SwapDone.ptr_inRegion {epm : Word} (hDone : SwapDone C s₀ u dest epm swap handed₀ handed')
    (hReady : DestReady s s₀ dest swap handed handed₀) {i : Nat} (hi : u.ctrIndirectPtrs i ≠ 0) :
    s.backing.InRegion (u.ctrIndirectPtrs i) := by
  rw [← hReady.region.inRegion_iff, ← hDone.region.inRegion_iff]
  exact (hDone.dispensed.page (hDone.inv.handed i hi)).inRegion

section

variable (hDone : SwapDone C s₀ u dest (s.frame C p) swap handed₀ handed')
include hDone

section

variable (hInv : PagingInv C s handed)
include hInv

section

variable (hReady : DestReady s s₀ dest swap handed handed₀) (hTarget : s.InMemory C p)
include hReady hTarget

theorem SwapDone.sameTable : SameTable C.layout s.vm u.vm := by
  refine ⟨?_, ?_, ?_⟩
  · rw [hDone.vm, hReady.vm]
  · intro n i hTable
    have hOut := hInv.table n hTable
    have hDest : n ≠ dest := by
      intro hEq
      exact hOut (hEq ▸ hReady.inRegion)
    have hFrame : n ≠ s.frame C p := by
      intro hEq
      rw [hEq] at hTable
      exact (hInv.frame p hTarget).2 hTable
    have hPtr : n ≠ u.counterPtr dest := by
      intro hEq
      exact hOut (hEq ▸ hDone.ptr_inRegion hReady hDone.ptr)
    rw [hDone.mem n hDest hFrame hPtr, hReady.vm]
  · rw [hDone.vm, hReady.vm]

theorem SwapDone.counter_eq {slot : Slot} {e x : Word}
    (hSlot : s.vm.slotOf C.layout p = some slot) (hVm : t.vm = u.vm.setEntry slot e)
    (hMerkle : t.merkle = u.merkle) (hPtrs : t.ctrIndirectPtrs = u.ctrIndirectPtrs)
    (hPtr : u.counterPtr x ≠ 0) : t.counter x = u.counter x := by
  have hSame := hDone.sameTable hInv hReady hTarget
  have hWritten := pteWritten e (hSame.apart hInv.apart) (hSame.slotOf.trans hSlot)
  apply Paging.counter_congr hPtrs hMerkle
  rw [hVm]
  apply hWritten.mem
  intro hTable
  exact hInv.table _ ((hSame.pages _).mp hTable) (hDone.ptr_inRegion hReady hPtr)

/- The other pages stay, in memory and in the backing store. -/
theorem SwapDone.memory_kept
    (hNe : q ≠ p)
    (hq : s.InMemory C q) :
    u.vm.mem (s.frame C q) = s.vm.mem (s.frame C q) := by
  have hOut := (hInv.frame q hq).1
  have hDest : s.frame C q ≠ dest := by
    intro hEq
    exact hOut (hEq ▸ hReady.inRegion)
  have hFrame := hInv.frame_ne hTarget hq hNe
  have hPtr : s.frame C q ≠ u.counterPtr dest := by
    intro hEq
    exact hOut (hEq ▸ hDone.ptr_inRegion hReady hDone.ptr)
  rw [hDone.mem _ hDest hFrame hPtr, hReady.vm]

theorem SwapDone.back_kept
    (hq : s.Swapped C q)
    (hNe : s.back C q ≠ dest) :
    u.vm.mem (s.back C q) = s.vm.mem (s.back C q) ∧
    u.counter (s.back C q) = s.counter (s.back C q) ∧ u.counterPtr (s.back C q) ≠ 0 ∧
    ∀ i, u.ctrIndirectPtrs i ≠ 0 → u.ctrIndirectPtrs i ≠ s.back C q := by
  rcases hInv.back q hq with ⟨hHanded, hCtr, hOld⟩
  have hFrame : s.back C q ≠ s.frame C p := by
    intro hEq
    exact (hInv.frame p hTarget).1 (hEq ▸ (hInv.dispensed.page hHanded).inRegion)
  have hOther := hDone.not_counter (hReady.sub hHanded) (hReady.ptrs ▸ hOld)
  have hPtr : s.back C q ≠ u.counterPtr dest := fun hEq => hOther _ hDone.ptr hEq.symm
  have hCtr₀ : s₀.counterPtr (s.back C q) ≠ 0 := by
    rw [Paging.counterPtr_congr hReady.ptrs hReady.region]
    exact hCtr
  refine ⟨?_, ?_, ?_, hOther⟩
  · rw [hDone.mem _ hNe hFrame hPtr, hReady.vm]
  · rw [hDone.counters _ (hReady.sub hHanded) hNe hCtr₀, hReady.counter_eq]
  · rw [hDone.kept _ hCtr₀]
    exact hCtr₀

/- The swap, and the entry of the page that it evicted. -/
theorem SwapDone.evicted {slot : Slot}
    (hSlot : s.vm.slotOf C.layout p = some slot)
    (hOld : ∀ i, s.ctrIndirectPtrs i ≠ 0 → s.ctrIndirectPtrs i ≠ dest)
    (hVm : t.vm = u.vm.setEntry slot (pteCreateInvalid (ppn (pagingPa C dest))
      (u.vm.entry slot &&& pteFlagMask)))
    (hMerkle : t.merkle = u.merkle)
    (hPtrs : t.ctrIndirectPtrs = u.ctrIndirectPtrs) :
    Evicted C s t p dest swap (ptePpn (s.pte C p) <<< pageBits) handed handed' := by
  have hSame := hDone.sameTable hInv hReady hTarget
  have hSlotU : u.vm.slotOf C.layout p = some slot := hSame.slotOf.trans hSlot
  have hWritten := pteWritten (pteCreateInvalid (ppn (pagingPa C dest))
      (u.vm.entry slot &&& pteFlagMask))
    (hSame.apart hInv.apart) hSlotU
  rw [← hVm] at hWritten
  -- the last write is inside the table
  have hOutside : ∀ x, ¬ TablePage C.layout s.vm x → t.vm.mem x = u.vm.mem x :=
    fun x hx => hWritten.mem x fun h => hx ((hSame.pages x).mp h)
  have hBackOutside : ∀ x, s.backing.InRegion x → t.vm.mem x = u.vm.mem x :=
    fun x hx => hOutside x fun h => hInv.table x h hx
  have hCounter : ∀ x, u.counterPtr x ≠ 0 → t.counter x = u.counter x :=
    fun _ => hDone.counter_eq hInv hReady hTarget hSlot hVm hMerkle hPtrs
  have hPtrEq := Paging.counterPtr_congr hPtrs (Paging.sameRegion_congr hMerkle)
  constructor
  · exact hTarget
  · rfl
  · have hEntry : u.vm.entry slot = s.pte C p := by
      rw [← pteOf_of_slot hSlotU, hSame.pteOf]
      rfl
    rw [← hEntry]
    exact hWritten.self
  · intro q hNe
    exact (hWritten.other q hNe).trans hSame.pteOf
  · intro q
    exact (hWritten.slotOf q).trans hSame.slotOf
  · intro r hr
    exact (hWritten.node r hr).trans (hSame.node (Nat.le_of_lt hr))
  · intro r n j hLen hr
    have hrU : u.vm.node C.layout r = some n := (hSame.node (by omega)).trans hr
    rw [hWritten.upper r n j hLen hrU]
    exact hSame.entry n j ⟨r, by omega, hr⟩
  · exact hReady.sub.trans hDone.sub
  · rw [Paging.backing_congr hMerkle]
    exact hDone.dispensed
  · rw [Paging.backing_congr hMerkle]
    exact hReady.region.trans hDone.region
  · exact hDone.inv.congr hPtrs (Set.Subset.refl _)
  · exact hDone.sub hReady.mem
  · exact hReady.fresh
  · exact hReady.same
  · rw [hCounter dest hDone.ptr, hBackOutside dest hReady.inRegion, hDone.stored,
      C.cipher.decrypt_encrypt, hTarget.contents, hReady.vm]
  · rw [hPtrEq]
    exact hDone.ptr
  · rw [hPtrs]
    exact hDone.not_counter hReady.mem (hReady.ptrs ▸ hOld)
  · intro q hq hBack
    rcases hInv.back q hq with ⟨hHanded, hCtr, _⟩
    have hSwap : swap ≠ 0 := by
      rw [← hBack]
      exact (hInv.dispensed.page hHanded).ne_zero
    have hDest := hReady.same hSwap
    rw [hOutside _ (hInv.frame p hTarget).2, hDone.swapped hSwap, hReady.counter_eq, hReady.vm,
      hDest, ← hBack, hq.contents]
    rw [Paging.counterPtr_congr hReady.ptrs hReady.region, hDest, ← hBack]
    exact hCtr
  · intro q hNe hq
    rw [hOutside _ (hInv.frame q hq).2]
    exact hDone.memory_kept hInv hReady hTarget hNe hq
  · intro q hq hNe
    rcases hDone.back_kept hInv hReady hTarget hq hNe with ⟨hMem, hKept, hPtr, hOther⟩
    refine ⟨?_, ?_, ?_, ?_⟩
    · rw [hBackOutside _ (hInv.dispensed.page (hInv.back q hq).1).inRegion, hMem]
    · rw [hCounter _ hPtr, hKept]
    · rw [hPtrEq]
      exact hPtr
    · rw [hPtrs]
      exact hOther
  · rw [hVm]
    change u.vm.free = s.vm.free
    rw [hDone.vm, hReady.vm]

end

end

end

theorem Paging.IsUser.slot (hUser : s.IsUser C p) : ∃ slot, s.vm.slotOf C.layout p = some slot ∧
    s.vm.entry slot = s.pte C p := by
  have hPte : s.vm.pteOf C.layout p ≠ 0 := by
    intro hZero
    apply hUser
    unfold Paging.pte
    rw [hZero]
    exact BitVec.zero_and
  rcases slotOf_of_pteOf_ne_zero hPte with ⟨slot, hSlot⟩
  exact ⟨slot, hSlot, (pteOf_of_slot hSlot).symm⟩

theorem pickPage_inMemory {random target : Word} (hInv : PagingInv C s handed)
    (hPick : pickPage C random s = .ok target) (hFound : target ≠ 0) :
    s.InMemory C (pageOf (vpn target)) := by
  rcases bind_ok hPick with ⟨_, _, hPick⟩
  cases hPick
  exact traversePageTableAndPick_inMemory hInv.interior hInv.zero hFound

/- What an eviction has written down: the number of pages in memory, and the hash of the page. -/
structure EvictRecorded [DecidableEq α] (C : PagingConfig α) (s t : Paging α) (p : PageNumber)
    (dest : Word) : Prop where
  count : t.userPageCount = s.userPageCount - 1
  indirects : s.Indirects → t.Indirects
  merkle : Recorded C s t dest (C.pswapHash (s.contents C p) (t.counter dest))

theorem SwapDone.recorded [DecidableEq α] {slot : Slot} {e : Word}
    (hDone : SwapDone C s₀ u dest (s.frame C p) swap handed₀ handed') (hInv : PagingInv C s handed)
    (hReady : DestReady s s₀ dest swap handed handed₀) (hTarget : s.InMemory C p)
    (hSlot : s.vm.slotOf C.layout p = some slot) (hVm : t.vm = u.vm.setEntry slot e)
    (hMerkle : t.merkle = u.merkle) (hPtrs : t.ctrIndirectPtrs = u.ctrIndirectPtrs)
    (hCount : t.userPageCount = u.userPageCount - 1)
    (hRecorded : SwapRecorded C s₀ u dest (s₀.vm.mem (s.frame C p))) :
    EvictRecorded C s t p dest := by
  refine ⟨?_, ?_, ?_⟩
  · rw [hCount, hRecorded.count, hReady.count]
  · intro hBounds i
    rw [hPtrs]
    apply hRecorded.indirects
    unfold Paging.Indirects
    rw [hReady.ptrs]
    exact hBounds
  · rw [hDone.counter_eq hInv hReady hTarget hSlot hVm
      hMerkle hPtrs hDone.ptr, hTarget.contents, ← hReady.vm]
    have hKept := hRecorded.merkle.of_grows hReady.merkle hReady.grows
    unfold Recorded at hKept ⊢
    rw [hMerkle]
    exact hKept

/- An eviction that finds no page changes nothing. -/
theorem evict_cases [DecidableEq α] {ch : Chosen α} {frame : Word} (hInv : PagingInv C s handed)
    (hSwap : swap ≠ 0 → ∃ q, s.Swapped C q ∧ s.back C q = swap)
    (hRun : pagingEvictAndFreeOne C ch swap s = .ok (frame, t)) :
    frame = 0 ∧ t = s ∨ ∃ p dest handed', Evicted C s t p dest swap frame handed handed' ∧
    EvictRecorded C s t p dest := by
  rcases bind_ok hRun with ⟨targetVa, hPick, hRun⟩
  split at hRun
  · cases hRun
    exact .inl ⟨rfl, rfl⟩
  · rename_i hFound
    right
    have hTarget := pickPage_inMemory hInv hPick hFound
    rcases hTarget.1.slot with ⟨slot, hSlot, hEntry⟩
    rcases bind_ok hRun with ⟨⟨dest, s₀⟩, hDest, hRun⟩
    rcases bind_ok hRun with ⟨_, hBounds, hRun⟩
    rcases destReady hInv (fun hNonzero => by
        rcases hSwap hNonzero with ⟨q, hq, hBack⟩
        rw [← hBack]
        exact (hInv.back q hq).1)
      hDest (runtimeAssert_ok hBounds) with
      ⟨handed₀, hReady⟩
    rcases bind_ok hRun with ⟨targetPte, hWalk, hRun⟩
    have hEq : targetPte = slot := by
      rw [hReady.vm, pteOfVa_eq hSlot] at hWalk
      cases hWalk
      rfl
    subst hEq
    rcases bind_ok hRun with ⟨_, _, hRun⟩
    rcases bind_ok hRun with ⟨u, hSwapped, hRest⟩
    -- the pages of counters are not the destination
    have hOld : ∀ i, s.ctrIndirectPtrs i ≠ 0 → s.ctrIndirectPtrs i ≠ dest := by
      intro i hi
      by_cases hZero : swap = 0
      · intro hEq
        exact hReady.fresh hZero (hEq ▸ hInv.counters.handed i hi)
      · rcases hSwap hZero with ⟨q, hq, hBack⟩
        rw [hReady.same hZero, ← hBack]
        exact (hInv.back q hq).2.2 i hi
    have hCounters : CounterInv s₀ handed₀ := hInv.counters.congr hReady.ptrs hReady.sub
    have hOut : ¬ s₀.backing.InRegion (s.frame C (pageOf (vpn targetVa))) := by
      rw [hReady.region.inRegion_iff]
      exact (hInv.frame _ hTarget).1
    have hOld₀ : ∀ i, s₀.ctrIndirectPtrs i ≠ 0 → s₀.ctrIndirectPtrs i ≠ dest := by
      rw [hReady.ptrs]
      exact hOld
    have hEntry₀ : s₀.vm.entry targetPte = s.pte C (pageOf (vpn targetVa)) := by
      rw [hReady.vm]
      exact hEntry
    rw [hEntry₀] at hSwapped hRest
    rcases pageSwapEpm_spec hReady.dispensed hCounters hReady.mem hOut hOld₀ hSwapped with
      ⟨⟨handed', hDone⟩, hRecorded⟩
    cases hRest
    refine ⟨pageOf (vpn targetVa), dest, handed', ?_, ?_⟩
    · exact hDone.evicted hInv hReady hTarget hSlot hOld rfl rfl rfl
    · exact hDone.recorded hInv hReady hTarget hSlot rfl rfl rfl rfl hRecorded

----
-- The Invariant After An Eviction
----

variable {frame : Word}

section

variable (hPte : t.pte C q = s.pte C q)
include hPte

theorem Paging.IsUser.congr : t.IsUser C q ↔ s.IsUser C q := by
  rw [Paging.IsUser, Paging.IsUser, hPte]

theorem Paging.InMemory.congr : t.InMemory C q ↔ s.InMemory C q := by
  rw [Paging.InMemory, Paging.InMemory, Paging.IsUser.congr hPte, hPte]

theorem Paging.Swapped.congr : t.Swapped C q ↔ s.Swapped C q := by
  rw [Paging.Swapped, Paging.Swapped, Paging.IsUser.congr hPte, hPte]

theorem Paging.frame_congr : t.frame C q = s.frame C q := by
  rw [Paging.frame, Paging.frame, hPte]

theorem Paging.back_congr : t.back C q = s.back C q := by
  rw [Paging.back, Paging.back, hPte]

theorem Paging.place_congr : t.place C q = s.place C q := by
  unfold Paging.place
  rw [hPte, Paging.frame_congr hPte, Paging.back_congr hPte]

end

theorem Paging.contents_congr (hUser : s.IsUser C q) (hPte : t.pte C q = s.pte C q)
    (hMerkle : t.merkle = s.merkle) (hPtrs : t.ctrIndirectPtrs = s.ctrIndirectPtrs)
    (hIn : s.InMemory C q → t.vm.mem (s.frame C q) = s.vm.mem (s.frame C q))
    (hOut : s.Swapped C q → t.vm.mem (s.back C q) = s.vm.mem (s.back C q) ∧
      t.vm.mem (s.counterPtr (s.back C q)) = s.vm.mem (s.counterPtr (s.back C q))) :
    t.contents C q = s.contents C q := by
  rcases Paging.isUser_cases hUser with hq | hq
  · rw [((Paging.InMemory.congr hPte).mpr hq).contents, hq.contents, Paging.frame_congr hPte]
    exact hIn hq
  · rcases hOut hq with ⟨hMem, hPage⟩
    rw [((Paging.Swapped.congr hPte).mpr hq).contents, hq.contents, Paging.back_congr hPte, hMem,
      Paging.counter_congr hPtrs hMerkle hPage]

theorem tablePage_congr {R : Layout} {m m' : Vm}
    (hNode : ∀ r, r.length < ptLevels → m'.node R r = m.node R r)
    (n : Word) :
    TablePage R m' n ↔ TablePage R m n := by
  constructor
  · rintro ⟨r, hr, hEq⟩
    exact ⟨r, hr, (hNode r hr).symm.trans hEq⟩
  · rintro ⟨r, hr, hEq⟩
    exact ⟨r, hr, (hNode r hr).trans hEq⟩

theorem interior_congr {R : Layout} {m m' : Vm}
    (hNode : ∀ r, r.length < ptLevels → m'.node R r = m.node R r)
    (hUpper : ∀ r n j, r.length + 1 < ptLevels → m.node R r = some n → m'.mem n j = m.mem n j)
    (hInterior : Interior R m) : Interior R m' := by
  intro r n j hLen hr hEntry
  rw [hNode r (by omega)] at hr
  rw [hUpper r n j hLen hr] at hEntry ⊢
  exact hInterior r n j hLen hr hEntry

/- The table has the same pages, every frame was a frame before, and the pages still have places of
   their own. -/
theorem PagingInv.moved (hInv : PagingInv C s handed)
    (hNode : ∀ r, r.length < ptLevels → t.vm.node C.layout r = s.vm.node C.layout r)
    (hUpper : ∀ r n j, r.length + 1 < ptLevels → s.vm.node C.layout r = some n →
      t.vm.mem n j = s.vm.mem n j)
    (hUsers : ∀ q, t.IsUser C q ↔ s.IsUser C q)
    (hDispensed : t.backing.Dispensed handed')
    (hCounters : CounterInv t handed')
    (hRegion : s.backing.SameRegion t.backing)
    (hFrames : ∀ q, t.InMemory C q → ∃ r, s.InMemory C r ∧ t.frame C q = s.frame C r)
    (hBacks : ∀ q, t.Swapped C q → t.back C q ∈ handed' ∧ t.counterPtr (t.back C q) ≠ 0 ∧
      ∀ i, t.ctrIndirectPtrs i ≠ 0 → t.ctrIndirectPtrs i ≠ t.back C q)
    (hSingle : ∀ q r, t.IsUser C q → t.IsUser C r → t.place C q = t.place C r → q = r)
    (hFree : ∀ page ∈ t.vm.free, s.Unused C page) :
    PagingInv C t handed' := by
  have hTable := tablePage_congr hNode
  refine ⟨?_, interior_congr hNode hUpper hInv.interior, ?_, hDispensed, hCounters, ?_, ?_, hBacks,
    hSingle, ?_⟩
  · intro r r' n hr hr' hEq hEq'
    exact hInv.apart r r' n hr hr' ((hNode r hr).symm.trans hEq) ((hNode r' hr').symm.trans hEq')
  · by_contra hUser
    exact (hUsers 0).mp hUser hInv.zero
  · intro n hn
    rw [hRegion.inRegion_iff]
    exact hInv.table n ((hTable n).mp hn)
  · intro q hq
    rcases hFrames q hq with ⟨r, hr, hEq⟩
    rw [hEq, hRegion.inRegion_iff, hTable]
    exact hInv.frame r hr
  · intro page hPage
    rcases hFree page hPage with ⟨hOut, hNo, hUsed⟩
    unfold Paging.Unused
    rw [hRegion.inRegion_iff, hTable]
    refine ⟨hOut, hNo, ?_⟩
    intro q hq
    rcases hFrames q hq with ⟨r, hr, hEq⟩
    rw [hEq]
    exact hUsed r hr

section

variable (hEvicted : Evicted C s t p dest swap frame handed handed')
include hEvicted

theorem Evicted.isUser_iff (q : PageNumber) : t.IsUser C q ↔ s.IsUser C q := by
  by_cases hEq : q = p
  · rw [Paging.IsUser, Paging.IsUser, hEq, hEvicted.pte, pteCreateInvalid_user]
  · exact Paging.IsUser.congr (hEvicted.other q hEq)

theorem Evicted.swapped_self : t.Swapped C p ∧ t.back C p = dest := by
  have hAligned := (hEvicted.dispensed.page hEvicted.dest_handed).aligned
  refine ⟨⟨(hEvicted.isUser_iff p).mpr hEvicted.target.1, ?_⟩, ?_⟩
  · rw [hEvicted.pte]
    exact pteCreateInvalid_valid _ _
  · rw [Paging.back, hEvicted.pte]
    exact pagingVa_pteCreateInvalid C _ hAligned

theorem Evicted.tablePage_iff (n : Word) :
    TablePage C.layout t.vm n ↔ TablePage C.layout s.vm n :=
  tablePage_congr hEvicted.node n

theorem Evicted.inRegion {x : Word} (hx : x ∈ handed') : s.backing.InRegion x := by
  rw [← hEvicted.region.inRegion_iff]
  exact (hEvicted.dispensed.page hx).inRegion

theorem Evicted.va_frame : va C.layout frame = s.frame C p := by
  rw [hEvicted.frame_eq]
  rfl

theorem Evicted.contents_other (hUser : s.IsUser C q) (hNe : q ≠ p)
    (hDest : s.Swapped C q → s.back C q ≠ dest) : t.contents C q = s.contents C q := by
  have hPte := hEvicted.other q hNe
  rcases Paging.isUser_cases hUser with hIn | hOut
  · rw [((Paging.InMemory.congr hPte).mpr hIn).contents, hIn.contents, Paging.frame_congr hPte]
    exact hEvicted.memory q hNe hIn
  · rcases hEvicted.backs q hOut (hDest hOut) with ⟨hMem, hCounter, _⟩
    rw [((Paging.Swapped.congr hPte).mpr hOut).contents,
      hOut.contents, Paging.back_congr hPte, hMem, hCounter]

theorem Evicted.contents_self : t.contents C p = s.contents C p := by
  rcases hEvicted.swapped_self with ⟨hOut, hBack⟩
  rw [hOut.contents, hBack]
  exact hEvicted.stored

end

/- The user sees the same pages. -/
structure SameView (C : PagingConfig α) (s t : Paging α) : Prop where
  user : ∀ q, t.IsUser C q ↔ s.IsUser C q
  contents : ∀ q, s.IsUser C q → t.contents C q = s.contents C q

theorem SameView.refl (C : PagingConfig α) (s : Paging α) : SameView C s s :=
  ⟨fun _ => Iff.rfl, fun _ _ => rfl⟩

theorem SameView.trans {u : Paging α} (hFirst : SameView C s t) (hSecond : SameView C t u) :
    SameView C s u := by
  refine ⟨?_, ?_⟩
  · intro q
    exact (hSecond.user q).trans (hFirst.user q)
  · intro q hUser
    exact (hSecond.contents q ((hFirst.user q).mpr hUser)).trans (hFirst.contents q hUser)

section

variable (hEvicted : Evicted C s t p dest swap frame handed handed')
include hEvicted

section

variable (hInv : PagingInv C s handed)
include hInv

theorem Evicted.apart : RadixTable.Apart (pointsTo C.layout) t.vm.mem t.vm.root ptLevels := by
  intro r r' n hr hr' hNode hNode'
  exact hInv.apart r r' n hr hr' ((hEvicted.node r hr).symm.trans hNode)
    ((hEvicted.node r' hr').symm.trans hNode')

theorem Evicted.frame_free : t.Unused C (va C.layout frame) := by
  unfold Paging.Unused
  rw [hEvicted.va_frame, hEvicted.region.inRegion_iff, hEvicted.tablePage_iff]
  rcases hInv.frame p hEvicted.target with ⟨hOut, hTable⟩
  refine ⟨hOut, hTable, ?_⟩
  intro q hq hEq
  have hNe : q ≠ p := hq.ne hEvicted.swapped_self.1
  have hPte := hEvicted.other q hNe
  have hqOld := (Paging.InMemory.congr hPte).mp hq
  rw [Paging.frame_congr hPte] at hEq
  exact hInv.frame_ne hEvicted.target hqOld hNe hEq

theorem Evicted.dest_back (hOut : s.Swapped C q)
    (hBack : s.back C q = swap) :
    dest = s.back C q := by
  have hSwap : swap ≠ 0 := by
    rw [← hBack]
    exact (hInv.dispensed.page (hInv.back q hOut).1).ne_zero
  exact (hEvicted.dest_swap hSwap).trans hBack.symm

theorem Evicted.back_after (hq : t.Swapped C q)
    (hNe : s.Swapped C q → s.back C q ≠ dest) :
    t.back C q ∈ handed' ∧ t.counterPtr (t.back C q) ≠ 0 ∧
    ∀ i, t.ctrIndirectPtrs i ≠ 0 → t.ctrIndirectPtrs i ≠ t.back C q := by
  by_cases hEq : q = p
  · rw [hEq, hEvicted.swapped_self.2]
    exact ⟨hEvicted.dest_handed, hEvicted.ptr, hEvicted.ptrs⟩
  · have hPte := hEvicted.other q hEq
    have hOld := (Paging.Swapped.congr hPte).mp hq
    rw [Paging.back_congr hPte]
    rcases hEvicted.backs q hOld (hNe hOld) with ⟨_, _, hPtr, hPtrs⟩
    exact ⟨hEvicted.sub (hInv.back q hOld).1, hPtr, hPtrs⟩

end

end

/- An eviction to a new backing page. -/
theorem Evicted.pagingInv (hEvicted : Evicted C s t p dest 0 frame handed handed')
    (hInv : PagingInv C s handed) : PagingInv C t handed' ∧ SameView C s t := by
  rcases hEvicted.swapped_self with ⟨hSelf, hSelfBack⟩
  have hNotDest : ∀ q, s.Swapped C q → s.back C q ≠ dest := by
    intro q hq hEq
    exact hEvicted.dest_fresh rfl (hEq ▸ (hInv.back q hq).1)
  -- no page has the new place yet
  have hNewPlace : ∀ q, s.IsUser C q → s.place C q ≠ dest := by
    intro q hUser hEq
    rcases Paging.isUser_cases hUser with hIn | hOut
    · rw [hIn.place] at hEq
      exact (hInv.frame q hIn).1 (hEq ▸ hEvicted.inRegion hEvicted.dest_handed)
    · rw [hOut.place] at hEq
      exact hNotDest q hOut hEq
  refine ⟨hInv.moved hEvicted.node hEvicted.upper hEvicted.isUser_iff hEvicted.dispensed
    hEvicted.counters hEvicted.region ?_ ?_ ?_ ?_, hEvicted.isUser_iff, ?_⟩
  · intro q hq
    have hPte := hEvicted.other q (hq.ne hSelf)
    exact ⟨q, (Paging.InMemory.congr hPte).mp hq, Paging.frame_congr hPte⟩
  · intro q hq
    exact hEvicted.back_after hInv hq (hNotDest q)
  · intro q r hq hr hPlace
    have hqOld := (hEvicted.isUser_iff q).mp hq
    have hrOld := (hEvicted.isUser_iff r).mp hr
    by_cases hqp : q = p
    · by_cases hrp : r = p
      · rw [hqp, hrp]
      · rw [hqp, hSelf.place, hSelfBack, Paging.place_congr (hEvicted.other r hrp)] at hPlace
        exact absurd hPlace.symm (hNewPlace r hrOld)
    · rw [Paging.place_congr (hEvicted.other q hqp)] at hPlace
      by_cases hrp : r = p
      · rw [hrp, hSelf.place, hSelfBack] at hPlace
        exact absurd hPlace (hNewPlace q hqOld)
      · rw [Paging.place_congr (hEvicted.other r hrp)] at hPlace
        exact hInv.single q r hqOld hrOld hPlace
  · rw [hEvicted.free]
    exact hInv.free
  · intro q hUser
    by_cases hEq : q = p
    · rw [hEq]
      exact hEvicted.contents_self
    · exact hEvicted.contents_other hUser hEq (hNotDest q)

end Keystone.Eyrie
