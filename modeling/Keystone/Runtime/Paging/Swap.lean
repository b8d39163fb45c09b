import Keystone.Runtime.Merkle.Demand
import Keystone.Runtime.Paging.Model

/-
  What a swap does.

  A swap writes the backing page, the frame, and the counter of the backing page. On the way it may
  take new backing pages for counters and for nodes of the Merkle tree. The counters of the other
  backing pages stay.

  Main declarations:
  * `CtrReady`: the counter of a backing page is ready for use
  * `SwapDone`: the pages and counters after a swap
  * `pageSwapEpm_spec`: a call that returns has swapped, and has recorded the hash
-/

----
-- Backing Pages
----

namespace Keystone

open Function (update update_of_ne update_self)

/- More backing pages have been handed out. -/
def Backing.Grows (b b' : Backing) : Prop :=
  ∀ handed, b.Dispensed handed → ∃ handed', handed ⊆ handed' ∧ b'.Dispensed handed' ∧
      b.SameRegion b'

theorem Backing.Grows.refl (b : Backing) : b.Grows b :=
  fun handed hDispensed => ⟨handed, Set.Subset.refl _, hDispensed, rfl, rfl⟩

theorem Backing.Grows.trans {a b c : Backing} (hFirst : a.Grows b) (hSecond : b.Grows c) :
    a.Grows c := by
  intro handed hDispensed
  rcases hFirst handed hDispensed with ⟨handed₁, hSub₁, hDispensed₁, hSame₁⟩
  rcases hSecond handed₁ hDispensed₁ with ⟨handed₂, hSub₂, hDispensed₂, hSame₂⟩
  exact ⟨handed₂, hSub₁.trans hSub₂, hDispensed₂, hSame₁.trans hSame₂⟩

theorem Backing.Spends.grows {b b' : Backing} {pages : Nat} (hSpends : b.Spends pages b') :
    b.Grows b' := by
  rintro handed ⟨inc, n, taken, hStepped, hHanded⟩
  rcases hSpends inc n taken hStepped with ⟨taken', hLe, _, hLt, hEq⟩
  rw [hHanded, hEq]
  refine ⟨{ x | ∃ j < taken', x = b.pageAt inc n j }, ?_,
    ⟨inc, n, taken', hStepped.advance hLt, rfl⟩, rfl, rfl⟩
  rintro x ⟨j, hj, hx⟩
  exact ⟨j, Nat.lt_of_lt_of_le hj hLe, hx⟩

theorem merkInsert_grows {α : Type} [DecidableEq α] {K : NodeHasher α} {s s' : MerkleState α}
    {root key : Word} {hash : α} {ret : Int} (hRun : merkInsert K root key hash s = .ok (ret, s')) :
    s.alloc.backing.Grows s'.alloc.backing :=
  (merkInsert_spends hRun).grows

----
-- Counters
----

namespace Eyrie

variable {α : Type} {s t : Paging α} {handed : Set Word} {page back epm swap : Word} {b : Backing}
variable {handed' handed₁ : Set Word}

/- The page of counters that a backing page belongs to, zero if there is none yet. -/
def Paging.counterPtr (s : Paging α) (page : Word) : Word :=
  s.ctrIndirectPtrs (backIndex s.backing page / 512)

def Paging.counterSlot (s : Paging α) (page : Word) : Slot :=
  (s.counterPtr page, BitVec.ofNat 9 (backIndex s.backing page % 512))

def Paging.counter (s : Paging α) (page : Word) : Word := s.vm.entry (s.counterSlot page)

theorem backIndex_congr {b' : Backing} (hSame : b.SameRegion b') (page : Word) :
    backIndex b' page = backIndex b page := by
  unfold backIndex
  rw [hSame.region]

theorem Paging.backing_congr (hMerkle : t.merkle = s.merkle) : t.backing = s.backing := by
  rw [Paging.backing, hMerkle, Paging.backing]

theorem Paging.sameRegion_congr (hMerkle : t.merkle = s.merkle) :
    s.backing.SameRegion t.backing := by
  rw [Paging.backing_congr hMerkle]
  exact ⟨rfl, rfl⟩

section

variable (hPtrs : t.ctrIndirectPtrs = s.ctrIndirectPtrs)
include hPtrs

theorem Paging.counterPtr_congr (hSame : s.backing.SameRegion t.backing)
    (page : Word) :
    t.counterPtr page = s.counterPtr page := by
  unfold Paging.counterPtr
  rw [hPtrs, backIndex_congr hSame]

theorem Paging.counterSlot_congr (hSame : s.backing.SameRegion t.backing)
    (page : Word) :
    t.counterSlot page = s.counterSlot page := by
  unfold Paging.counterSlot
  rw [Paging.counterPtr_congr hPtrs hSame, backIndex_congr hSame]

theorem Paging.counter_congr (hMerkle : t.merkle = s.merkle)
    (hMem : t.vm.mem (s.counterPtr page) = s.vm.mem (s.counterPtr page)) :
    t.counter page = s.counter page := by
  unfold Paging.counter
  rw [Paging.counterSlot_congr hPtrs (Paging.sameRegion_congr hMerkle)]
  exact congrFun hMem _

end

/- The pages of counters are different backing pages. -/
structure CounterInv (s : Paging α) (handed : Set Word) : Prop where
  handed : ∀ i, s.ctrIndirectPtrs i ≠ 0 → s.ctrIndirectPtrs i ∈ handed
  inj : ∀ i j, s.ctrIndirectPtrs i ≠ 0 → s.ctrIndirectPtrs i = s.ctrIndirectPtrs j → i = j

theorem CounterInv.congr (hInv : CounterInv s handed)
    (hPtrs : t.ctrIndirectPtrs = s.ctrIndirectPtrs)
    (hSub : handed ⊆ handed') :
    CounterInv t handed' := by
  refine ⟨?_, ?_⟩
  · rw [hPtrs]
    exact fun i hi => hSub (hInv.handed i hi)
  · rw [hPtrs]
    exact hInv.inj

/- A new page of counters. -/
theorem CounterInv.insert {k : Nat} {ptr : Word}
    (hInv : CounterInv s handed)
    (hPtr : ptr ≠ 0)
    (hFresh : ptr ∉ handed)
    (hPtrs : t.ctrIndirectPtrs = update s.ctrIndirectPtrs k ptr) :
    CounterInv t (insert ptr handed) := by
  have hNew : ∀ i, s.ctrIndirectPtrs i ≠ 0 → s.ctrIndirectPtrs i ≠ ptr := by
    intro i hi hEq
    exact hFresh (hEq ▸ hInv.handed i hi)
  refine ⟨?_, ?_⟩
  · intro i hi
    rw [hPtrs] at hi ⊢
    by_cases hEq : i = k
    · rw [hEq, update_self]
      exact Set.mem_insert _ _
    · rw [update_of_ne hEq] at hi ⊢
      exact .inr (hInv.handed i hi)
  · intro i j hi hEq
    rw [hPtrs] at hi hEq
    by_cases hI : i = k
    · by_cases hJ : j = k
      · rw [hI, hJ]
      · rw [hI, update_self, update_of_ne hJ] at hEq
        exact absurd hEq.symm (hNew j (hEq ▸ hPtr))
    · rw [update_of_ne hI] at hi hEq
      by_cases hJ : j = k
      · rw [hJ, update_self] at hEq
        exact absurd hEq (hNew i hi)
      · rw [update_of_ne hJ] at hEq
        exact hInv.inj i j hi hEq

theorem backIndex_inj {x y : Word} (hDispensed : b.Dispensed handed) (hx : b.Page x) (hy : b.Page y)
    (hIndex : backIndex b x = backIndex b y) : x = y := by
  have hAligned : b.region.toNat % 4096 = 0 := by
    rcases hDispensed with ⟨_, _, _, hStepped, _⟩
    exact hStepped.region_aligned
  have hIdx : ∀ z, b.Page z → backIndex b z = (z.toNat - b.region.toNat) / 4096 := by
    intro z hz
    unfold backIndex
    rw [BitVec.toNat_ushiftRight, BitVec.toNat_sub_of_le (BitVec.le_def.mpr hz.inRegion.1),
      Nat.shiftRight_eq_div_pow, pageBits]
  rw [hIdx x hx, hIdx y hy] at hIndex
  have hxLow := hx.inRegion.1
  have hyLow := hy.inRegion.1
  have hxAligned := hx.aligned
  have hyAligned := hy.aligned
  apply BitVec.eq_of_toNat_eq
  omega

/- Different backing pages have different counters. -/
theorem CounterInv.slot_ne {x y : Word}
    (hInv : CounterInv s handed)
    (hDispensed : s.backing.Dispensed handed)
    (hx : x ∈ handed)
    (hy : y ∈ handed)
    (hNe : x ≠ y)
    (hPtr : s.counterPtr x ≠ 0) :
    s.counterSlot x ≠ s.counterSlot y := by
  intro hSlot
  have hGroup := hInv.inj _ _ hPtr (congrArg Prod.fst hSlot)
  have hIdx := congrArg BitVec.toNat (congrArg Prod.snd hSlot)
  change (BitVec.ofNat 9 _).toNat = (BitVec.ofNat 9 _).toNat at hIdx
  rw [BitVec.toNat_ofNat, BitVec.toNat_ofNat] at hIdx
  exact hNe (backIndex_inj hDispensed (hDispensed.page hx) (hDispensed.page hy) (by omega))

/- The counter of a backing page is ready for use. -/
structure CtrReady (s t : Paging α) (page : Word) (handed handed' : Set Word) : Prop where
  ptr : t.counterPtr page ≠ 0
  ptrs : ∀ i ≠ backIndex s.backing page / 512, t.ctrIndirectPtrs i = s.ctrIndirectPtrs i
  old : s.counterPtr page ≠ 0 → t = s
  new : s.counterPtr page = 0 → t.counterPtr page ∉ handed
  mem : ∀ q ≠ t.counterPtr page, t.vm.mem q = s.vm.mem q
  vm : t.vm = { s.vm with mem := t.vm.mem }
  count : t.userPageCount = s.userPageCount
  sub : handed ⊆ handed'
  dispensed : t.backing.Dispensed handed'
  region : s.backing.SameRegion t.backing
  inv : CounterInv t handed'
  merkle : t.merkle = (s.setBacking t.backing).merkle
  grows : s.backing.Grows t.backing
  index : backIndex s.backing page / 512 < numCtrIndirects

theorem pswapPageoutCtr_spec {ch : Chosen α} {slot : Slot} (hDispensed : s.backing.Dispensed handed)
    (hCtr : CounterInv s handed) (hRun : pswapPageoutCtr ch page s = .ok (slot, t)) :
    slot = t.counterSlot page ∧ ∃ handed', CtrReady s t page handed handed' := by
  rcases bind_ok hRun with ⟨_, _, hRun⟩
  rcases bind_ok hRun with ⟨_, hAssert, hRun⟩
  have hBound := of_decide_eq_true (runtimeAssert_ok hAssert)
  dsimp only at hRun
  split at hRun
  · rename_i hPtr
    cases hRun
    exact ⟨rfl, handed, hPtr, fun _ _ => rfl, fun _ => rfl,
      fun hZero => absurd hZero hPtr, fun _ _ => rfl, rfl, rfl,
      Set.Subset.refl _, hDispensed, ⟨rfl, rfl⟩, hCtr, rfl,
      Backing.Grows.refl _, hBound⟩
  · rename_i hNone
    have hNone := not_not.mp hNone
    rcases bind_ok hRun with ⟨⟨ptr, b⟩, hAlloc, hRest⟩
    split at hRest
    · cases hRest
    · rename_i hPtr
      have hGrows := (pagingAllocBackingPage_spends hAlloc).grows
      rcases pagingAllocBackingPage_spec hDispensed with
        hZero | ⟨ptr', b', hOk, _, hFresh, hNext, hSame⟩
      · rw [hZero] at hAlloc
        cases hAlloc
        exact absurd rfl hPtr
      · rw [hOk] at hAlloc
        cases hAlloc
        simp only [pure, Except.pure, Except.ok.injEq, Prod.mk.injEq] at hRest
        rcases hRest with ⟨hSlot, hState⟩
        have hBacking : t.backing = b := by
          rw [← hState]
          rfl
        have hPtrs : t.ctrIndirectPtrs = update s.ctrIndirectPtrs
            (backIndex s.backing page / 512) ptr := by
          rw [← hState]
          rfl
        have hIndex : backIndex t.backing page = backIndex s.backing page := by
          rw [hBacking]
          exact backIndex_congr hSame page
        have hSelf : t.counterPtr page = ptr := by
          rw [Paging.counterPtr, hPtrs, hIndex, update_self]
        refine ⟨?_, insert ptr handed, ?_⟩
        · rw [← hSlot, Paging.counterSlot, hSelf, hIndex]
        · constructor
          · rw [hSelf]
            exact hPtr
          · intro i hNe
            rw [hPtrs, update_of_ne hNe]
          · intro h
            exact absurd hNone h
          · intro _
            rw [hSelf]
            exact hFresh
          · intro q hq
            rw [hSelf] at hq
            rw [← hState]
            exact update_of_ne hq _ _
          · rw [← hState]
            rfl
          · rw [← hState]
            rfl
          · exact Set.subset_insert _ _
          · rw [hBacking]
            exact hNext
          · rw [hBacking]
            exact hSame
          · exact hCtr.insert hPtr hFresh hPtrs
          · rw [← hState]
            rfl
          · rw [hBacking]
            exact hGrows
          · exact hBound

----
-- Swaps
----

variable {C : PagingConfig α}

/- The contents of the frame are in the backing page, under its next counter. With a swap, the frame
   holds what the backing page held under the counter before. -/
structure SwapDone (C : PagingConfig α) (s t : Paging α) (back epm swap : Word)
    (handed handed' : Set Word) : Prop where
  stored : t.vm.mem back = C.cipher.encrypt (t.counter back) (s.vm.mem epm)
  out : swap = 0 → t.vm.mem epm = s.vm.mem epm
  swapped : swap ≠ 0 → s.counterPtr back ≠ 0 → t.vm.mem epm =
        C.cipher.decrypt (s.counter back) (s.vm.mem back)
  ptr : t.counterPtr back ≠ 0
  fresh : s.counterPtr back = 0 → t.counterPtr back ∉ handed
  ptrs : ∀ i ≠ backIndex s.backing back / 512, t.ctrIndirectPtrs i = s.ctrIndirectPtrs i
  kept : ∀ page, s.counterPtr page ≠ 0 → t.counterPtr page = s.counterPtr page
  counters : ∀ page ∈ handed, page ≠ back →
      s.counterPtr page ≠ 0 → t.counter page = s.counter page
  mem : ∀ q ≠ back, q ≠ epm → q ≠ t.counterPtr back → t.vm.mem q = s.vm.mem q
  vm : t.vm = { s.vm with mem := t.vm.mem }
  sub : handed ⊆ handed'
  dispensed : t.backing.Dispensed handed'
  region : s.backing.SameRegion t.backing
  inv : CounterInv t handed'

theorem SwapDone.ptr_cases (hDone : SwapDone C s t back epm swap handed handed') (i : Nat) :
    t.ctrIndirectPtrs i = s.ctrIndirectPtrs i ∨ t.ctrIndirectPtrs i ∉ handed := by
  by_cases hEq : i = backIndex s.backing back / 512
  · have hSelf : t.counterPtr back = t.ctrIndirectPtrs i := by
      rw [Paging.counterPtr, backIndex_congr hDone.region, hEq]
    have hBefore : s.counterPtr back = s.ctrIndirectPtrs i := by
      rw [Paging.counterPtr, hEq]
    by_cases hOld : s.counterPtr back = 0
    · right
      rw [← hSelf]
      exact hDone.fresh hOld
    · left
      rw [← hSelf, ← hBefore]
      exact hDone.kept back hOld
  · exact .inl (hDone.ptrs i hEq)

/- A page that was handed out and holds no counters does not get any. -/
theorem SwapDone.not_counter (hDone : SwapDone C s t back epm swap handed handed')
    (hPage : page ∈ handed)
    (hOld : ∀ i, s.ctrIndirectPtrs i ≠ 0 → s.ctrIndirectPtrs i ≠ page)
    (i : Nat)
    (hi : t.ctrIndirectPtrs i ≠ 0) :
    t.ctrIndirectPtrs i ≠ page := by
  rcases hDone.ptr_cases i with hKept | hFresh
  · rw [hKept] at hi ⊢
    exact hOld i hi
  · intro hEq
    exact hFresh (hEq ▸ hPage)

theorem returnedState_eq_some {ε β : Type} {x : Except ε β} {b : β}
    (hRun : returnedState x = some b) : x = .ok b := by
  cases x with
  | error e => cases hRun
  | ok b' =>
    cases hRun
    rfl

/- After some backing pages have been taken, the hash has been inserted into the Merkle tree, if
   there is one. -/
def Recorded [DecidableEq α] (C : PagingConfig α) (s t : Paging α) (key : Word) (hash : α) : Prop :=
  ∃ backing, s.backing.Grows backing ∧ if C.pageHash then
      ∃ code, merkInsert C.hasher C.merkRoot key hash (s.setBacking backing).merkle =
            .ok (code, t.merkle)
    else t.merkle = (s.setBacking backing).merkle

theorem Recorded.of_grows [DecidableEq α] {s₀ : Paging α} {key : Word} {hash : α}
    (hMerkle : s₀.merkle = (s.setBacking s₀.backing).merkle) (hGrows : s.backing.Grows s₀.backing)
    (hRecorded : Recorded C s₀ t key hash) : Recorded C s t key hash := by
  rcases hRecorded with ⟨backing, hMore, hInsert⟩
  have hSame : (s₀.setBacking backing).merkle = (s.setBacking backing).merkle := by
    unfold Paging.setBacking
    rw [hMerkle]
    rfl
  rw [hSame] at hInsert
  exact ⟨backing, hGrows.trans hMore, hInsert⟩

theorem pagingInsert_spec [DecidableEq α] {hash : α} (hRun : pagingInsert C back hash s = .ok t) :
    t.vm = s.vm ∧ t.ctrIndirectPtrs = s.ctrIndirectPtrs ∧ s.backing.Grows t.backing ∧
    t.userPageCount = s.userPageCount ∧ Recorded C s t back hash := by
  unfold pagingInsert at hRun
  split at hRun
  · rename_i hHash
    rcases bind_ok hRun with ⟨⟨ret, merkle⟩, hInsert, hRest⟩
    cases hRest
    refine ⟨rfl, rfl, merkInsert_grows hInsert, rfl, s.backing, Backing.Grows.refl _, ?_⟩
    rw [if_pos hHash]
    exact ⟨ret, hInsert⟩
  · rename_i hHash
    cases hRun
    refine ⟨rfl, rfl, Backing.Grows.refl _, rfl, s.backing, Backing.Grows.refl _, ?_⟩
    rw [if_neg hHash]
    rfl

/- The pages of counters are in the table of `NUM_CTR_INDIRECTS` entries. -/
def Paging.Indirects (s : Paging α) : Prop := ∀ i, s.ctrIndirectPtrs i ≠ 0 → i < numCtrIndirects

theorem CtrReady.indirects (hReady : CtrReady s t back handed handed') (hBounds : s.Indirects) :
    t.Indirects := by
  intro i hi
  by_cases hIndex : i = backIndex s.backing back / 512
  · rw [hIndex]
    exact hReady.index
  · rw [hReady.ptrs i hIndex] at hi
    exact hBounds i hi

/- What a swap has written down besides the page. -/
structure SwapRecorded [DecidableEq α] (C : PagingConfig α) (s t : Paging α) (back : Word)
    (data : PageData) : Prop where
  count : t.userPageCount = s.userPageCount
  indirects : s.Indirects → t.Indirects
  merkle : Recorded C s t back (C.pswapHash data (t.counter back))

section

variable {s₁ : Paging α} (hReady : CtrReady s s₁ back handed handed₁)
include hReady

/- The page of the counter is neither of the two pages of the swap. -/
theorem CtrReady.epm_ne (hEpm : ¬ s.backing.InRegion epm) : epm ≠ s₁.counterPtr back := by
  intro hEq
  apply hEpm
  rw [← hReady.region.inRegion_iff, hEq]
  exact (hReady.dispensed.page (hReady.inv.handed _ hReady.ptr)).inRegion

theorem CtrReady.back_ne (hBack : back ∈ handed)
    (hCtrBack : ∀ i, s.ctrIndirectPtrs i ≠ 0 → s.ctrIndirectPtrs i ≠ back) :
    back ≠ s₁.counterPtr back := by
  intro hEq
  by_cases hOld : s.counterPtr back = 0
  · exact hReady.new hOld (hEq ▸ hBack)
  · rw [hReady.old hOld] at hEq
    exact hCtrBack _ hOld hEq.symm

theorem CtrReady.kept (hPage : s.counterPtr page ≠ 0) :
    s₁.counterPtr page = s.counterPtr page := by
  unfold Paging.counterPtr at hPage ⊢
  rw [backIndex_congr hReady.region]
  by_cases hEq : backIndex s.backing page / 512 = backIndex s.backing back / 512
  · rw [hEq] at hPage
    rw [hReady.old hPage]
  · exact hReady.ptrs _ hEq

theorem CtrReady.counter_kept (hCtr : CounterInv s handed)
    (hPage : s.counterPtr page ≠ 0) :
    s₁.counter page = s.counter page := by
  by_cases hOld : s.counterPtr back = 0
  · have hNe : s.counterPtr page ≠ s₁.counterPtr back := by
      intro hEq
      exact hReady.new hOld (hEq ▸ hCtr.handed _ hPage)
    unfold Paging.counter Paging.counterSlot
    rw [hReady.kept hPage, backIndex_congr hReady.region]
    exact congrFun (hReady.mem _ hNe) _
  · rw [hReady.old hOld]

end

/- The writes of a swap, after its counter is ready. -/
theorem CtrReady.swapDone {s₁ s₂ : Paging α}
    (hReady : CtrReady s s₁ back handed handed₁)
    (hCtr : CounterInv s handed)
    (hBack : back ∈ handed)
    (hEpm : ¬ s.backing.InRegion epm)
    (hCtrBack : ∀ i, s.ctrIndirectPtrs i ≠ 0 → s.ctrIndirectPtrs i ≠ back)
    (hBackMem : s₂.vm.mem back = C.cipher.encrypt (s₁.counter back + 1) (s₁.vm.mem epm))
    (hEpmMem : s₂.vm.mem epm = if swap = 0 then s₁.vm.mem epm else
      C.cipher.decrypt (s₁.counter back) (s.vm.mem back))
    (hMem : ∀ q ≠ back, q ≠ epm → s₂.vm.mem q = s₁.vm.mem q)
    (hVm : s₂.vm = { s₁.vm with mem := s₂.vm.mem })
    (hPtrs : s₂.ctrIndirectPtrs = s₁.ctrIndirectPtrs)
    (hGrows : s₁.backing.Grows s₂.backing)
    (hLast : t = s₂.setEntry (s₁.counterSlot back) (s₁.counter back + 1)) :
    t.counter back = s₁.counter back + 1 ∧
    ∃ handed', SwapDone C s t back epm swap handed handed' := by
  rcases hGrows handed₁ hReady.dispensed with ⟨handed', hSub, hDispensed, hSame⟩
  have hPtrsT : t.ctrIndirectPtrs = s₁.ctrIndirectPtrs := by
    rw [hLast]
    exact hPtrs
  have hBacking : t.backing = s₂.backing := by
    rw [hLast]
    rfl
  have hSlot : ∀ page, t.counterSlot page = s₁.counterSlot page :=
    Paging.counterSlot_congr hPtrsT (hBacking ▸ hSame)
  have hPtr : ∀ page, t.counterPtr page = s₁.counterPtr page :=
    fun page => congrArg Prod.fst (hSlot page)
  have hOutside : ∀ q ≠ s₁.counterPtr back, t.vm.mem q = s₂.vm.mem q := by
    intro q hq
    rw [hLast]
    exact update_of_ne hq _ _
  have hPtrBack := hReady.back_ne hBack hCtrBack
  have hPtrEpm := hReady.epm_ne hEpm
  have hCounter : t.counter back = s₁.counter back + 1 := by
    unfold Paging.counter
    rw [hSlot, hLast]
    exact RadixTable.write_self
  refine ⟨hCounter, handed', ?_⟩
  constructor
  · rw [hCounter, hOutside back hPtrBack, hBackMem, hReady.mem epm hPtrEpm]
  · intro hZero
    rw [hOutside epm hPtrEpm, hEpmMem, if_pos hZero, hReady.mem epm hPtrEpm]
  · intro hSwap hOld
    rw [hOutside epm hPtrEpm, hEpmMem, if_neg hSwap, hReady.old hOld]
  · rw [hPtr]
    exact hReady.ptr
  · rw [hPtr]
    exact hReady.new
  · rw [hPtrsT]
    exact hReady.ptrs
  · intro page hPage
    rw [hPtr]
    exact hReady.kept hPage
  · intro page hPage hNe hOld
    -- the page of this counter is none of the pages that are written before the last entry
    have hKept := hReady.kept hOld
    have hPageBack : s₁.counterPtr page ≠ back := by
      rw [hKept]
      exact hCtrBack _ hOld
    have hOldPtr : s₁.counterPtr page ≠ 0 := by
      rw [hKept]
      exact hOld
    have hPageEpm : s₁.counterPtr page ≠ epm := by
      intro hEq
      apply hEpm
      rw [← hEq, ← hReady.region.inRegion_iff]
      exact (hReady.dispensed.page (hReady.inv.handed _ hOldPtr)).inRegion
    have hSlotNe := hReady.inv.slot_ne hReady.dispensed (hReady.sub hPage) (hReady.sub hBack) hNe
      hOldPtr
    rw [← hReady.counter_kept hCtr hOld]
    unfold Paging.counter
    rw [hSlot, hLast]
    refine (RadixTable.write_of_ne fun hNode hIdx => hSlotNe (Prod.ext hNode hIdx)).trans ?_
    exact congrFun (hMem _ hPageBack hPageEpm) _
  · intro q hqBack hqEpm hqPtr
    rw [hPtr] at hqPtr
    rw [hOutside q hqPtr, hMem q hqBack hqEpm]
    exact hReady.mem q hqPtr
  · have hVmT : t.vm = { s₂.vm with mem := t.vm.mem } := by
      rw [hLast]
      rfl
    rw [hVmT, hVm, hReady.vm]
  · exact hReady.sub.trans hSub
  · rw [hBacking]
    exact hDispensed
  · rw [hBacking]
    exact hReady.region.trans hSame
  · exact hReady.inv.congr hPtrsT hSub

theorem pageSwapEpm_spec [DecidableEq α] {ch : Chosen α} (hDispensed : s.backing.Dispensed handed)
    (hCtr : CounterInv s handed) (hBack : back ∈ handed) (hEpm : ¬ s.backing.InRegion epm)
    (hCtrBack : ∀ i, s.ctrIndirectPtrs i ≠ 0 → s.ctrIndirectPtrs i ≠ back)
    (hRun : pageSwapEpm C ch back epm swap s = .ok t) :
    (∃ handed', SwapDone C s t back epm swap handed handed') ∧
    SwapRecorded C s t back (s.vm.mem epm) := by
  have hBackEpm : back ≠ epm := by
    intro hEq
    exact hEpm (hEq ▸ (hDispensed.page hBack).inRegion)
  rcases bind_ok hRun with ⟨_, _, hRun⟩
  rcases bind_ok hRun with ⟨_, _, hRun⟩
  rcases bind_ok hRun with ⟨_, hAssert, hRun⟩
  have hSwap := of_decide_eq_true (runtimeAssert_ok hAssert)
  rcases bind_ok hRun with ⟨⟨slot, s₁⟩, hCounter, hRun⟩
  rcases pswapPageoutCtr_spec hDispensed hCtr hCounter with ⟨hSlot, handed₁, hReady⟩
  subst hSlot
  -- what both cases have in common
  have hFinish : ∀ {s₂ s₃ : Paging α}, pagingInsert C back
        (C.pswapHash (s₁.vm.mem epm) (s₁.counter back + 1)) s₂ = .ok s₃ →
      s₂.merkle = s₁.merkle →
      s₂.userPageCount = s₁.userPageCount →
      s₂.ctrIndirectPtrs = s₁.ctrIndirectPtrs →
      s₂.vm = { s₁.vm with mem := s₂.vm.mem } →
      s₂.vm.mem back = C.cipher.encrypt (s₁.counter back + 1) (s₁.vm.mem epm) →
      (s₂.vm.mem epm = if swap = 0 then s₁.vm.mem epm else
        C.cipher.decrypt (s₁.counter back) (s.vm.mem back)) →
      (∀ q ≠ back, q ≠ epm → s₂.vm.mem q = s₁.vm.mem q) →
      t = s₃.setEntry (s₁.counterSlot back) (s₁.counter back + 1) →
      (∃ handed', SwapDone C s t back epm swap handed handed') ∧
      SwapRecorded C s t back (s.vm.mem epm) := by
    intro s₂ s₃ hInsert hMerkle hCount hPtrs₂ hVm₂ hBackMem hEpmMem hMem hEq
    rcases pagingInsert_spec hInsert with ⟨hVm, hPtrs, hGrows, hCount₃, hRecorded⟩
    rw [← hVm] at hVm₂ hBackMem hEpmMem hMem
    rw [Paging.backing_congr hMerkle] at hGrows
    rcases hReady.swapDone hCtr hBack hEpm hCtrBack hBackMem hEpmMem hMem hVm₂
      (hPtrs.trans hPtrs₂) hGrows hEq with ⟨hNext, hDone⟩
    refine ⟨hDone, ?_, ?_, ?_⟩
    · rw [hEq]
      change s₃.userPageCount = _
      rw [hCount₃, hCount, hReady.count]
    · intro hBounds i
      rw [hEq]
      change s₃.ctrIndirectPtrs i ≠ 0 → _
      rw [hPtrs, hPtrs₂]
      exact hReady.indirects hBounds i
    · rw [hNext, ← hReady.mem epm (hReady.epm_ne hEpm)]
      have hKept : Recorded C s₂ t back
          (C.pswapHash (s₁.vm.mem epm) (s₁.counter back + 1)) := by
        rw [hEq]
        exact hRecorded
      refine hKept.of_grows ?_ ?_
      · rw [hMerkle, Paging.backing_congr hMerkle]
        exact hReady.merkle
      · rw [Paging.backing_congr hMerkle]
        exact hReady.grows
  dsimp only at hRun
  split at hRun
  · rename_i hNonzero
    have hSame : swap = back := hSwap.resolve_left hNonzero
    rcases bind_ok hRun with ⟨_, _, hRun⟩
    rcases bind_ok hRun with ⟨s₃, hInsert, hRest⟩
    cases hRest
    refine hFinish hInsert rfl rfl rfl rfl ?_ ?_ ?_ rfl
    · change update (update _ back _) epm _ back = _
      rw [update_of_ne hBackEpm, update_self]
      rfl
    · rw [if_neg hNonzero, hSame]
      exact update_self ..
    · intro q hqBack hqEpm
      change update (update _ back _) epm _ q = _
      rw [update_of_ne hqEpm, update_of_ne hqBack]
  · rename_i hZero
    rcases bind_ok hRun with ⟨s₃, hInsert, hRest⟩
    cases hRest
    refine hFinish hInsert rfl rfl rfl rfl (update_self ..) ?_ ?_ rfl
    · rw [if_pos (not_not.mp hZero)]
      exact update_of_ne (Ne.symm hBackEpm) _ _
    · intro q hqBack _
      exact update_of_ne hqBack _ _

end Eyrie

end Keystone
