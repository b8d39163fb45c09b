import Keystone.Runtime.Merkle.LastWrite
import Keystone.Runtime.Paging.Swap

/-
  Sequences of swaps.

  What a backing page holds for the enclave is its contents decrypted under its counter. In every
  sequence of swaps, with other work on the frames in between, a swap stores the contents of the
  frame in the backing page, gives the frame what the backing page held if it is asked to, and
  leaves the other backing pages that are in use alone.
-/

----
-- Runs Of Swaps
----

namespace Keystone.Eyrie

open Option (bind_eq_bind bind_eq_some_iff guard_eq_some' pure_def some)

variable {α : Type}

/- What a backing page holds for the enclave. -/
def Paging.logical (C : PagingConfig α) (s : Paging α) (page : Word) : PageData :=
  C.cipher.decrypt (s.counter page) (s.vm.mem page)

/- The backing pages that were obtained for data, and those that have been stored. -/
structure SwapRun (α : Type) where
  state : Paging α
  owned : List Word
  stored : List Word

/- `reload` is a swap with the backing page itself as the page to load. -/
inductive SwapEvent (α : Type) where
| alloc
| write (epm : Word) (data : PageData)
| swap (ch : Chosen α) (back epm : Word) (reload : Bool)

variable (C : PagingConfig α)

/- A page of the enclave. -/
def EpmPage (epm : Word) : Prop := epm.toNat % 4096 = 0 ∧ pagingEpmInbounds C epm = true

instance (epm : Word) : Decidable (EpmPage C epm) := inferInstanceAs (Decidable (_ ∧ _))

/- The enclave has the 1 GB below `EYRIE_PAGING_START`, where `init_paging` puts the region. -/
theorem EpmPage.not_inRegion {C : PagingConfig α}
    {epm : Word}
    {b : Backing}
    (hEnd : C.layout.freememVaStart + C.layout.freememSize ≤ eyriePagingStart)
    (hRegion : b.region = eyriePagingStart)
    (hEpm : EpmPage C epm) :
    ¬ b.InRegion epm := by
  intro hIn
  have hBelow := BitVec.lt_def.mp (of_decide_eq_true hEpm.2).2
  have hAbove := hIn.1
  rw [hRegion] at hAbove
  have hLe := BitVec.le_def.mp hEnd
  omega

/- Only calls that return have a next state. Backing pages are obtained from the allocator, and a
   page is loaded only if it was stored before. -/
def swapStep [DecidableEq α] (r : SwapRun α) : SwapEvent α → Option (SwapRun α)
| .alloc => do
    let (page, backing) ← returnedState (pagingAllocBackingPage r.state.backing)
    guard (page ≠ 0)
    return { r with state := r.state.setBacking backing, owned := page :: r.owned }
| .write epm data => do
    guard (EpmPage C epm)
    return { r with state := r.state.setPage epm data }
| .swap ch back epm reload => do
    guard (EpmPage C epm)
    guard (back ∈ r.owned)
    guard (reload = true → back ∈ r.stored)
    let s ← returnedState (pageSwapEpm C ch back epm (if reload then back else 0) r.state)
    return { r with state := s, stored := back :: r.stored }

/- After `pswap_init`, with no page of counters yet. -/
structure SwapStart (r : SwapRun α) : Prop where
  owned : r.owned = []
  stored : r.stored = []
  ptrs : ∀ i, r.state.ctrIndirectPtrs i = 0
  dispensed : r.state.backing.Dispensed ∅

/- The pages of data are no pages of counters, and those that have been stored have a counter. -/
structure SwapInv (r : SwapRun α) (handed : Set Word) : Prop where
  dispensed : r.state.backing.Dispensed handed
  counters : CounterInv r.state handed
  owned : ∀ page ∈ r.owned, page ∈ handed
  apart : ∀ page ∈ r.owned, ∀ i, r.state.ctrIndirectPtrs i ≠ 0 →
        r.state.ctrIndirectPtrs i ≠ page
  stored : ∀ page ∈ r.stored, page ∈ r.owned ∧ r.state.counterPtr page ≠ 0
  frames : ∀ epm, EpmPage C epm → ¬ r.state.backing.InRegion epm

variable {C} {r r' : SwapRun α} {handed : Set Word}

theorem SwapStart.swapInv (hStart : SwapStart r)
    (hFrames : ∀ epm, EpmPage C epm → ¬ r.state.backing.InRegion epm) : SwapInv C r ∅ := by
  constructor
  · exact hStart.dispensed
  · refine ⟨?_, ?_⟩
    · intro i hi
      exact absurd (hStart.ptrs i) hi
    · intro i j hi
      exact absurd (hStart.ptrs i) hi
  · rw [hStart.owned]
    intro page hPage
    cases hPage
  · rw [hStart.owned]
    intro page hPage
    cases hPage
  · rw [hStart.stored]
    intro page hPage
    cases hPage
  · exact hFrames

section

variable (hInv : SwapInv C r handed)
include hInv

theorem SwapInv.alloc {page : Word} {backing : Backing}
    (hAlloc : pagingAllocBackingPage r.state.backing = .ok (page, backing)) (hPage : page ≠ 0) :
    SwapInv C { r with state := r.state.setBacking backing, owned := page :: r.owned }
      (insert page handed) := by
  rcases pagingAllocBackingPage_spec hInv.dispensed with
    hZero | ⟨page', backing', hOk, _, hFresh, hNext, hSame⟩
  · rw [hZero] at hAlloc
    cases hAlloc
    exact absurd rfl hPage
  · rw [hOk] at hAlloc
    cases hAlloc
    constructor
    · exact hNext
    · refine ⟨?_, hInv.counters.inj⟩
      intro i hi
      exact .inr (hInv.counters.handed i hi)
    · intro x hx
      rcases List.mem_cons.mp hx with hNew | hOld
      · exact .inl hNew
      · exact .inr (hInv.owned x hOld)
    · intro x hx i hi
      rcases List.mem_cons.mp hx with hNew | hOld
      · intro hEq
        apply hFresh
        rw [← hNew, ← hEq]
        exact hInv.counters.handed i hi
      · exact hInv.apart x hOld i hi
    · intro x hx
      rcases hInv.stored x hx with ⟨hOwned, hPtr⟩
      refine ⟨List.mem_cons_of_mem _ hOwned, ?_⟩
      change r.state.ctrIndirectPtrs (backIndex backing x / 512) ≠ 0
      rw [backIndex_congr hSame]
      exact hPtr
    · intro epm hEpm
      change ¬ backing.InRegion epm
      rw [hSame.inRegion_iff]
      exact hInv.frames epm hEpm

theorem SwapInv.write (epm : Word) (data : PageData) :
    SwapInv C { r with state := r.state.setPage epm data }
    handed :=
  ⟨hInv.dispensed, ⟨hInv.counters.handed, hInv.counters.inj⟩, hInv.owned,
    hInv.apart, hInv.stored, hInv.frames⟩

variable {s : Paging α}

theorem SwapInv.swapDone [DecidableEq α] {ch : Chosen α} {back epm swap : Word}
    (hEpm : EpmPage C epm) (hBack : back ∈ r.owned)
    (hRun : pageSwapEpm C ch back epm swap r.state = .ok s) :
    ∃ handed', SwapDone C r.state s back epm swap handed
    handed' :=
  (pageSwapEpm_spec hInv.dispensed hInv.counters (hInv.owned back hBack) (hInv.frames epm hEpm)
    (hInv.apart back hBack) hRun).1

theorem SwapInv.swap {back epm swap : Word} {handed' : Set Word}
    (hBack : back ∈ r.owned) (hDone : SwapDone C r.state s back epm swap handed handed') :
    SwapInv C { r with state := s, stored := back :: r.stored }
    handed' := by
  constructor
  · exact hDone.dispensed
  · exact hDone.inv
  · intro page hPage
    exact hDone.sub (hInv.owned page hPage)
  · intro page hPage i hi
    exact hDone.not_counter (hInv.owned page hPage) (hInv.apart page hPage) i hi
  · intro page hPage
    rcases List.mem_cons.mp hPage with hNew | hOld
    · rw [hNew]
      exact ⟨hBack, hDone.ptr⟩
    · rcases hInv.stored page hOld with ⟨hOwned, hPtr⟩
      refine ⟨hOwned, ?_⟩
      rw [hDone.kept page hPtr]
      exact hPtr
  · intro x hx
    rw [hDone.region.inRegion_iff]
    exact hInv.frames x hx

end

theorem swapInv_step [DecidableEq α] {e : SwapEvent α} (hInv : ∃ handed, SwapInv C r handed)
    (hStep : swapStep C r e = some r') : ∃ handed', SwapInv C r' handed' := by
  rcases hInv with ⟨handed, hInv⟩
  cases e with
  | alloc =>
    simp only [swapStep, bind_eq_bind, bind_eq_some_iff, guard_eq_some',
      pure_def, some.injEq] at hStep
    rcases hStep with ⟨⟨page, backing⟩, hRun, _, hPage, hState⟩
    rw [← hState]
    exact ⟨_, hInv.alloc (returnedState_eq_some hRun) hPage⟩
  | write epm data =>
    simp only [swapStep, bind_eq_bind, bind_eq_some_iff, guard_eq_some',
      pure_def, some.injEq] at hStep
    rcases hStep with ⟨_, _, hState⟩
    rw [← hState]
    exact ⟨_, hInv.write epm data⟩
  | swap ch back epm reload =>
    simp only [swapStep, bind_eq_bind, bind_eq_some_iff, guard_eq_some',
      pure_def, some.injEq] at hStep
    rcases hStep with ⟨_, hEpm, _, hBack, _, _, s, hRun, hState⟩
    rcases hInv.swapDone hEpm hBack (returnedState_eq_some hRun) with ⟨handed', hDone⟩
    rw [← hState]
    exact ⟨_, hInv.swap hBack hDone⟩

----
-- Logical Contents
----

variable {C : PagingConfig α} {r₀ : SwapRun α} {handed' : Set Word}
variable {back epm swap : Word}

theorem SwapDone.logical_self {t : Paging α} (hDone : SwapDone C s t back epm swap handed handed')
    : t.logical C back = s.vm.mem epm := by
  unfold Paging.logical
  rw [hDone.stored, C.cipher.decrypt_encrypt]

theorem SwapInv.logical_other {other : Word} (hInv : SwapInv C r handed)
    (hDone : SwapDone C r.state s back epm swap handed handed') (hEpm : EpmPage C epm)
    (hOther : other ∈ r.stored) (hNe : other ≠ back) :
    s.logical C other = r.state.logical C other ∧ s.counter other = r.state.counter other := by
  rcases hInv.stored other hOther with ⟨hOwned, hPtr⟩
  have hHanded := hInv.owned other hOwned
  have hFrame : other ≠ epm := by
    intro hEq
    exact hInv.frames epm hEpm (hEq ▸ (hInv.dispensed.page hHanded).inRegion)
  have hCounterPage : other ≠ s.counterPtr back :=
    (hDone.not_counter hHanded (hInv.apart other hOwned) _ hDone.ptr).symm
  have hCounter := hDone.counters other hHanded hNe hPtr
  refine ⟨?_, hCounter⟩
  unfold Paging.logical
  rw [hCounter, hDone.mem other hNe hFrame hCounterPage]

/- Every swap of every run. The frames of the enclave are not in the backing region. -/
theorem page_swap_exchanges [DecidableEq α] {events : List (SwapEvent α)} {ch : Chosen α}
    {reload : Bool} (hStart : SwapStart r₀)
    (hFrames : ∀ epm, EpmPage C epm → ¬ r₀.state.backing.InRegion epm)
    (hRun : Runs.exec (swapStep C) r₀ events = some r)
    (hSwap : swapStep C r (.swap ch back epm reload) = some r') :
    r'.state.logical C back = r.state.vm.mem epm ∧ (r'.state.vm.mem epm =
      if reload then r.state.logical C back
      else r.state.vm.mem epm) ∧
    ∀ other ∈ r.stored, other ≠ back → r'.state.logical C other =
    r.state.logical C other ∧
    r'.state.counter other = r.state.counter other := by
  have hReached : ∃ handed, SwapInv C r handed :=
    Runs.exec_invariant (fun _ _ _ hInv hStep => swapInv_step hInv hStep)
      ⟨_, hStart.swapInv hFrames⟩ hRun
  rcases hReached with ⟨handed, hInv⟩
  simp only [swapStep, bind_eq_bind, bind_eq_some_iff, guard_eq_some',
    pure_def, some.injEq] at hSwap
  rcases hSwap with ⟨_, hEpm, _, hBack, _, hReload, s, hCall, hState⟩
  rcases hInv.swapDone hEpm hBack (returnedState_eq_some hCall) with ⟨handed', hDone⟩
  rw [← hState]
  refine ⟨hDone.logical_self, ?_, ?_⟩
  · cases reload with
    | false => exact hDone.out rfl
    | true =>
      have hNonzero : back ≠ 0 := (hInv.dispensed.page (hInv.owned back hBack)).ne_zero
      exact hDone.swapped hNonzero (hInv.stored back (hReload rfl)).2
  · intro other hOther hNe
    exact hInv.logical_other hDone hEpm hOther hNe

/- A cipher that adds the counter to every word. -/
def sampleCipher : PageCipher where
  encrypt ctr page i := page i + ctr
  decrypt ctr page i := page i - ctr
  decrypt_encrypt ctr page := by
    funext i
    exact BitVec.add_sub_cancel (page i) ctr

def samplePaging : PagingConfig Nat where
  layout := sampleLayout
  pagingPaStart := 0xa0000000
  aligned := by decide
  cipher := sampleCipher
  pageHash := true
  pswapHash page ctr := (page 0).toNat + ctr.toNat
  hasher := sampleHasher
  merkRoot := sampleRoot

/- The counters start at the largest value. -/
def sampleChosen : Chosen Nat where
  random := 0
  randomPage := fun _ => -1
  uninit := sampleStart.mem 0
  rounds := 4

def sampleSwaps : SwapRun Nat where
  state :=
    { vm := blankVm
      merkle := sampleStart
      ctrIndirectPtrs := fun _ => 0
      userPageCount := 0 }
  owned := []
  stored := []

/- Two pages are stored. -/
def storeTwo : List (SwapEvent Nat) :=
  [.alloc, .alloc, .write 0xffffffff00101000 (fun _ => 7), .swap sampleChosen 0xffffffff40000000
      0xffffffff00101000 false,
    .swap sampleChosen 0xffffffff40101000 0xffffffff00101000 false,
    .write 0xffffffff00101000 (fun _ => 8)]

/- The first one is loaded again. -/
theorem page_swap_exchanges_storeTwo : ∃ r r', Runs.exec (swapStep samplePaging) sampleSwaps
    storeTwo = some r ∧
    swapStep samplePaging r (.swap sampleChosen 0xffffffff40000000
      0xffffffff00101000 true) = some r' ∧
    r'.state.logical samplePaging 0xffffffff40000000 = r.state.vm.mem 0xffffffff00101000 ∧
    (r'.state.vm.mem 0xffffffff00101000 = if true then
      r.state.logical samplePaging 0xffffffff40000000
      else r.state.vm.mem 0xffffffff00101000) ∧
    ∀ other ∈ r.stored, other ≠ 0xffffffff40000000 →
    r'.state.logical samplePaging other = r.state.logical samplePaging other ∧
    r'.state.counter other = r.state.counter other := by
  have hReturns : (Runs.exec (swapStep samplePaging) sampleSwaps
      (storeTwo ++ [.swap sampleChosen 0xffffffff40000000
      0xffffffff00101000 true])).isSome = true := by
    decide +kernel
  rcases Option.isSome_iff_exists.mp hReturns with ⟨r', hAll⟩
  rcases (Runs.exec_append_iff _).mp hAll with ⟨r, hRun, hLast⟩
  have hSwap := (Runs.exec_singleton_iff _).mp hLast
  have hStart : SwapStart sampleSwaps := ⟨rfl, rfl, fun _ => rfl, sampleBacking_dispensed⟩
  have hFrames : ∀ epm, EpmPage samplePaging epm → ¬ sampleSwaps.state.backing.InRegion epm :=
    fun _ hEpm => hEpm.not_inRegion (by decide) rfl
  exact ⟨r, r', hRun, hSwap, page_swap_exchanges hStart hFrames hRun hSwap⟩

end Keystone.Eyrie
