import Keystone.Runtime.Paging.Ready

/-
  Paged memory refines flat memory.

  A page fault exchanges the places of two pages: the one that the user needs and the one that is
  evicted for it. In every run of loads, stores, faults and evictions, what the user sees is a flat
  memory that takes the stores of the run, and no two pages of the user share a place.
-/

----
-- The Handler
----

namespace Keystone.Eyrie

open Function (update update_of_ne update_self)
open Option (bind_eq_bind bind_eq_some_iff guard_eq_some' pure_def some)

variable {α : Type} {C : PagingConfig α} {s u : Paging α} {handed : Set Word}

theorem orExit_ok {β : Type} {x : Except RuntimeFault β} {b : β} (hRun : orExit x = .ok b) :
    x = .ok b := by
  cases x with
  | error f => cases hRun
  | ok b' =>
    cases hRun
    rfl

/- The handler, at an address of the user. -/
theorem pagingHandlePageFault_spec [DecidableEq α] {ch : Chosen α} {v : Word}
    (hInv : PagingInv C s handed) (hUser : s.IsUser C (pageOf (vpn v)))
    (hRun : pagingHandlePageFault C ch v s = .ok u) :
    ∃ p handed', PagingInv C u handed' ∧ FaultRecorded C s u p (pageOf (vpn v)) := by
  rcases hUser.slot with ⟨slot, hSlot, hEntry⟩
  unfold pagingHandlePageFault at hRun
  rw [pteOfVa_eq hSlot] at hRun
  dsimp only at hRun
  rw [hEntry] at hRun
  split at hRun
  · cases hRun
  split at hRun
  · cases hRun
  rename_i hInvalid
  have hOut : s.Swapped C (pageOf (vpn v)) := ⟨hUser, not_not.mp hInvalid⟩
  split at hRun
  · cases hRun
  rcases bind_ok hRun with ⟨_, _, hRun⟩
  rcases bind_ok hRun with ⟨⟨frame, t⟩, hEvict, hRun⟩
  split at hRun
  · cases hRun
  rename_i hFrame
  rcases bind_ok hRun with ⟨_, _, hRun⟩
  rcases evict_cases hInv (fun _ => ⟨pageOf (vpn v), hOut, rfl⟩) (orExit_ok hEvict) with
    ⟨hZero, _⟩ | ⟨p, dest, handed', hEvicted, hRecorded⟩
  · exact absurd hZero hFrame
  · have hVm : u.vm = t.vm.setEntry slot (pteCreate (ppn frame)
            (t.vm.entry slot &&& pteFlagMask)) := by
      cases hRun
      rfl
    have hFree : u.vm.free = t.vm.free := by
      rw [hVm]
      rfl
    have hMerkle : u.merkle = t.merkle := by
      cases hRun
      rfl
    have hPtrs : u.ctrIndirectPtrs = t.ctrIndirectPtrs := by
      cases hRun
      rfl
    have hCount : u.userPageCount = t.userPageCount + 1 := by
      cases hRun
      rfl
    have hWritten := hEvicted.written hInv hOut hSlot hVm
    have hExchanged := hEvicted.exchanged hInv hOut rfl hWritten
    rcases hEvicted.faulted hInv rfl hWritten hExchanged hFree hMerkle hPtrs with ⟨hNext, hView⟩
    exact ⟨p, handed', hNext, hRecorded.fault hEvicted hInv rfl hWritten hExchanged
        hView hMerkle hPtrs hCount⟩

----
-- Contents Of Other Pages
----

variable {t : Paging α} {p q : PageNumber}

section

variable (hInv : PagingInv C s handed)
variable (hSame : SameTable C.layout s.vm t.vm)
variable (hMerkle : t.merkle = s.merkle)
variable (hPtrs : t.ctrIndirectPtrs = s.ctrIndirectPtrs)
include hInv hSame hMerkle hPtrs

/- The invariant says nothing about the contents of pages that are not in the table. -/
theorem PagingInv.congr
    (hFree : ∀ page ∈ t.vm.free, s.Unused C page) : PagingInv C t handed := by
  have hPte : ∀ r, t.pte C r = s.pte C r := fun r => hSame.pteOf
  refine hInv.moved ?_ ?_ (fun r => Paging.IsUser.congr (hPte r)) ?_
    (hInv.counters.congr hPtrs (Set.Subset.refl _)) (Paging.sameRegion_congr hMerkle) ?_ ?_ ?_ hFree
  · intro r hr
    exact hSame.node (Nat.le_of_lt hr)
  · intro r n j hLen hNode
    exact hSame.entry n j ⟨r, by omega, hNode⟩
  · rw [Paging.backing_congr hMerkle]
    exact hInv.dispensed
  · intro r hr
    exact ⟨r, (Paging.InMemory.congr (hPte r)).mp hr, Paging.frame_congr (hPte r)⟩
  · intro r hr
    rw [hPtrs, Paging.counterPtr_congr hPtrs (Paging.sameRegion_congr hMerkle),
      Paging.back_congr (hPte r)]
    exact hInv.back r ((Paging.Swapped.congr (hPte r)).mp hr)
  · intro r r' hr hr' hEq
    rw [Paging.place_congr (hPte r), Paging.place_congr (hPte r')] at hEq
    exact hInv.single r r' ((Paging.IsUser.congr (hPte r)).mp hr)
      ((Paging.IsUser.congr (hPte r')).mp hr') hEq

theorem PagingInv.sameView
    (hMem : ∀ x, ¬ s.Unused C x → t.vm.mem x = s.vm.mem x) : SameView C s t := by
  have hRegion : ∀ x ∈ handed, t.vm.mem x = s.vm.mem x :=
    fun x hx => hMem x fun hUnused => hUnused.1 (hInv.dispensed.page hx).inRegion
  refine ⟨fun r => Paging.IsUser.congr hSame.pteOf, ?_⟩
  intro r hUser
  apply Paging.contents_congr hUser hSame.pteOf hMerkle hPtrs
  · intro hIn
    exact hMem _ fun hUnused => hUnused.2.2 r hIn rfl
  · intro hOut
    rcases hInv.back r hOut with ⟨hHanded, hPtr, _⟩
    exact ⟨hRegion _ hHanded, hRegion _ (hInv.counters.handed _ hPtr)⟩

end

variable {page : Word}

theorem PagingInv.take {rest : List Word} (zero : Bool) (hInv : PagingInv C s handed)
    (hFree : s.vm.free = page :: rest) (hState : t = { s with vm := { s.vm with free := rest } }) :
    PagingInv C (if zero then t.setPage page fun _ => 0 else t) handed ∧ SameView C s
    (if zero then t.setPage page fun _ => 0 else t) ∧
    (PagingReady C s → PagingReady C (if zero then t.setPage page fun _ => 0 else t)) := by
  have hPage := hInv.free page (hFree ▸ List.mem_cons_self)
  have hRest : ∀ x ∈ rest, s.Unused C x :=
    fun x hx => hInv.free x (hFree ▸ List.mem_cons_of_mem _ hx)
  subst hState
  cases zero with
  | false =>
    have hSame := sameTable_free (R := C.layout) s.vm rest
    exact ⟨hInv.congr hSame rfl rfl hRest, hInv.sameView hSame rfl rfl fun _ _ => rfl,
      fun hReady => hReady.congr hInv hSame rfl rfl rfl fun _ _ => rfl⟩
  | true =>
    have hSame := sameTable_update (R := C.layout) (fun _ => 0) rest hPage.2.1
    refine ⟨hInv.congr hSame rfl rfl hRest, hInv.sameView hSame rfl rfl ?_, fun hReady =>
      hReady.congr hInv hSame rfl rfl rfl ?_⟩
    · intro x hx
      apply update_of_ne
      intro hEq
      rw [hEq] at hx
      exact hx hPage
    · intro x hx
      apply update_of_ne
      intro hEq
      rw [hEq] at hx
      exact hPage.1 hx

theorem PagingInv.put {m : Vm} (hInv : PagingInv C s handed) (hPage : s.Unused C page)
    (hPut : spaPut C.layout s.vm page = some m) (hVm : t.vm = m) (hMerkle : t.merkle = s.merkle)
    (hPtrs : t.ctrIndirectPtrs = s.ctrIndirectPtrs) (hCount : t.userPageCount = s.userPageCount) :
    PagingInv C t handed ∧ SameView C s t ∧ (PagingReady C s → PagingReady C t) := by
  rcases spaPut_spec hPut (fun x hx => (hInv.free x hx).2.1) hPage.2.1 with ⟨hSame, hFree, _⟩
  rw [← hVm] at hSame hFree
  have hMem : ∀ x, ¬ s.Unused C x → t.vm.mem x = s.vm.mem x := by
    intro x hx
    rw [hVm]
    apply spaPut_mem hPut
    · intro hMember
      exact hx (hInv.free x hMember)
    · intro hEq
      rw [hEq] at hx
      exact hx hPage
  refine ⟨hInv.congr hSame hMerkle hPtrs ?_, hInv.sameView hSame hMerkle hPtrs hMem, fun hReady =>
    hReady.congr hInv hSame hMerkle hPtrs hCount ?_⟩
  · intro x hx
    rw [hFree, List.mem_append, List.mem_singleton] at hx
    rcases hx with hOld | hNew
    · exact hInv.free x hOld
    · rw [hNew]
      exact hPage
  · intro x hx
    exact hMem x fun hUnused => hUnused.1 hx

----
-- Evictions And The Allocator
----

variable [DecidableEq α] {s t : Paging α}
variable {handed : Set Word} {ch : Chosen α}

theorem pagingEvictAndFreeOne_spec {frame : Word} (hInv : PagingInv C s handed)
    (hRun : pagingEvictAndFreeOne C ch 0 s = .ok (frame, t)) : ∃ handed', PagingInv C t handed' ∧
    SameView C s t ∧ KeepsReady C s t ∧ (frame ≠ 0 → t.Unused C (va C.layout frame)) := by
  rcases evict_cases hInv (fun hNe => absurd rfl hNe) hRun with ⟨hZero, hSame⟩ |
      ⟨p, dest, handed', hEvicted, hRecorded⟩
  · rw [hSame]
    exact ⟨handed, hInv, SameView.refl C s, fun _ hReady => hReady, fun hNe => absurd hZero hNe⟩
  · rcases hEvicted.pagingInv hInv with ⟨hNext, hView⟩
    exact ⟨handed', hNext, hView, hEvicted.keepsReady hInv hRecorded,
      fun _ => hEvicted.frame_free hInv⟩

theorem orAssertion_ok {β : Type} {x : Option β} {b : β} (hRun : orAssertion x = .ok b) :
    x = some b := by
  cases x with
  | none => cases hRun
  | some b' =>
    cases hRun
    rfl

theorem spaRefill_spec (hInv : PagingInv C s handed) (hRun : spaRefill C ch s = .ok t) :
    ∃ handed', PagingInv C t handed' ∧ SameView C s t ∧ KeepsReady C s t := by
  unfold spaRefill at hRun
  split at hRun
  · rcases bind_ok hRun with ⟨⟨newPa, u⟩, hEvict, hRun⟩
    rcases pagingEvictAndFreeOne_spec hInv hEvict with ⟨handed', hNext, hView, hKeeps, hUnused⟩
    dsimp only at hRun
    split at hRun
    · cases hRun
      exact ⟨handed', hNext, hView, hKeeps⟩
    · rename_i hNonzero
      rcases bind_ok hRun with ⟨m, hPut, hRun⟩
      have hVm : t.vm = m := by
        cases hRun
        rfl
      have hMerkle : t.merkle = u.merkle := by
        cases hRun
        rfl
      have hPtrs : t.ctrIndirectPtrs = u.ctrIndirectPtrs := by
        cases hRun
        rfl
      have hCount : t.userPageCount = u.userPageCount := by
        cases hRun
        rfl
      rcases hNext.put (hUnused hNonzero) (orAssertion_ok hPut) hVm hMerkle hPtrs hCount with
        ⟨hInv', hSecond, hReady'⟩
      exact ⟨handed', hInv', hView.trans hSecond, fun hShallow hReady =>
          hReady' (hKeeps hShallow hReady)⟩
  · cases hRun
    exact ⟨handed, hInv, SameView.refl C s, fun _ hReady => hReady⟩

theorem pagingSpaGet_spec {zero : Bool} (hInv : PagingInv C s handed)
    (hRun : pagingSpaGet C ch zero s = .ok (page, t)) :
    ∃ handed', PagingInv C t handed' ∧ SameView C s t ∧ KeepsReady C s t := by
  rcases bind_ok hRun with ⟨u, hFill, hTake⟩
  rcases spaRefill_spec hInv hFill with ⟨handed', hNext, hView, hKeeps⟩
  split at hTake
  · cases hTake
    exact ⟨handed', hNext, hView, hKeeps⟩
  · rename_i page' rest hFree
    rcases bind_ok hTake with ⟨_, _, hTake⟩
    cases hTake
    rcases hNext.take zero hFree rfl with ⟨hInv', hSecond, hReady'⟩
    exact ⟨handed', hInv', hView.trans hSecond, fun hShallow hReady =>
        hReady' (hKeeps hShallow hReady)⟩

----
-- Loads And Stores
----

variable {α : Type} {C : PagingConfig α} {s t : Paging α} {handed : Set Word} {m : FlatMemory}
variable {v : Word} {b : BitVec 8}

/- The user sees this memory. -/
def Shows (C : PagingConfig α) (s : Paging α) (m : FlatMemory) : Prop :=
  ∀ v, s.UserVa C v → pageByte (s.contents C (pageOf (vpn v))) v = m v

theorem SameView.userVa_iff (hView : SameView C s t) (v : Word) : t.UserVa C v ↔ s.UserVa C v :=
  and_congr_right fun _ => hView.user _

theorem SameView.shows (hView : SameView C s t) (hShows : Shows C s m) : Shows C t m := by
  intro v hUser
  have hOld := (hView.userVa_iff v).mp hUser
  rw [hView.contents _ hOld.2]
  exact hShows v hOld

theorem canonical_ext {w : Word} (hv : Canonical v) (hw : Canonical w)
    (hPage : pageOf (vpn v) = pageOf (vpn w)) (hIndex : wordIndex v = wordIndex w)
    (hByte : v.toNat % 8 = w.toNat % 8) : v = w := by
  have hPages := congrArg BitVec.toNat hPage
  have hWords := congrArg BitVec.toNat hIndex
  simp only [pageOf, vpn, wordIndex, pageOffset, riscvPageSize,
    BitVec.toNat_setWidth, BitVec.toNat_ushiftRight,
    BitVec.toNat_umod, Nat.shiftRight_eq_div_pow, pageBits]
    at hPages hWords
  have hSize : BitVec.toNat (4096 : Word) = 4096 := rfl
  rw [hSize] at hWords
  have hLow : v.setWidth 39 = w.setWidth 39 := by
    apply BitVec.eq_of_toNat_eq
    rw [BitVec.toNat_setWidth, BitVec.toNat_setWidth]
    omega
  rw [← hv, ← hw, hLow]

theorem pageByte_putPageByte (page : PageData) (v w : Word) (b : BitVec 8) :
    pageByte (putPageByte page v b) w = if wordIndex w = wordIndex v ∧
    w.toNat % 8 = v.toNat % 8 then b
    else pageByte page w := by
  unfold pageByte putPageByte
  by_cases hIndex : wordIndex w = wordIndex v
  · rw [hIndex, update_self, Bits.byteOf_putByte _ _ (by omega)]
    simp
  · rw [update_of_ne hIndex, if_neg fun hBoth => hIndex hBoth.1]

/- A store in the frame of a page. -/
theorem PagingInv.store (hInv : PagingInv C s handed) (hShows : Shows C s m) (hv : Canonical v)
    (hIn : s.InMemory C (pageOf (vpn v)))
    (hState : t = s.setPage (s.frame C (pageOf (vpn v))) (putPageByte
      (s.vm.mem (s.frame C (pageOf (vpn v)))) v b)) :
    PagingInv C t handed ∧ Shows C t (update m v b) ∧
    (PagingReady C s → PagingReady C t) := by
  rcases hInv.frame _ hIn with ⟨hOut, hTable⟩
  have hSame : SameTable C.layout s.vm t.vm := by
    rw [hState]
    exact sameTable_update _ s.vm.free hTable
  have hMerkle : t.merkle = s.merkle := by
    rw [hState]
    rfl
  have hPtrs : t.ctrIndirectPtrs = s.ctrIndirectPtrs := by
    rw [hState]
    rfl
  have hFree : t.vm.free = s.vm.free := by
    rw [hState]
    rfl
  have hSelf : t.vm.mem (s.frame C (pageOf (vpn v))) =
      putPageByte (s.vm.mem (s.frame C (pageOf (vpn v)))) v b := by
    rw [hState]
    exact update_self _ _ _
  have hMem : ∀ x, x ≠ s.frame C (pageOf (vpn v)) → t.vm.mem x = s.vm.mem x := by
    intro x hNe
    rw [hState]
    exact update_of_ne hNe _ _
  have hRegion : ∀ x, s.backing.InRegion x → t.vm.mem x = s.vm.mem x := by
    intro x hx
    apply hMem
    intro hFrame
    exact hOut (hFrame ▸ hx)
  have hCount : t.userPageCount = s.userPageCount := by
    rw [hState]
    rfl
  refine ⟨hInv.congr hSame hMerkle hPtrs ?_, ?_, ?_⟩
  · rw [hFree]
    exact hInv.free
  · intro w hw
    have hPte : t.pte C (pageOf (vpn w)) = s.pte C (pageOf (vpn w)) := hSame.pteOf
    have hwOld : s.UserVa C w := ⟨hw.1, (Paging.IsUser.congr hPte).mp hw.2⟩
    by_cases hPage : pageOf (vpn w) = pageOf (vpn v)
    · -- the same page
      rw [hPage] at hPte
      have hInT := (Paging.InMemory.congr hPte).mpr hIn
      have hOld := hShows w hwOld
      rw [hPage, hIn.contents] at hOld
      rw [hPage, hInT.contents, Paging.frame_congr hPte, hSelf, pageByte_putPageByte, hOld]
      by_cases hEq : w = v
      · rw [hEq, update_self]
        exact if_pos ⟨rfl, rfl⟩
      · rw [update_of_ne hEq]
        apply if_neg
        rintro ⟨hIndex, hByte⟩
        exact hEq (canonical_ext hw.1 hv hPage hIndex hByte)
    · -- another page has another place
      have hEq : w ≠ v := by
        intro hEq
        rw [hEq] at hPage
        exact hPage rfl
      have hHanded : ∀ x ∈ handed, t.vm.mem x = s.vm.mem x :=
        fun x hx => hRegion x (hInv.dispensed.page hx).inRegion
      have hKept : t.contents C (pageOf (vpn w)) = s.contents C (pageOf (vpn w)) := by
        apply Paging.contents_congr hwOld.2 hPte hMerkle hPtrs
        · intro hInW
          exact hMem _ (hInv.frame_ne hIn hInW hPage)
        · intro hOutW
          rcases hInv.back _ hOutW with ⟨hBack, hPtr, _⟩
          exact ⟨hHanded _ hBack, hHanded _ (hInv.counters.handed _ hPtr)⟩
      rw [hKept, update_of_ne hEq]
      exact hShows w hwOld
  · intro hReady
    exact hReady.congr hInv hSame hMerkle hPtrs hCount hRegion

variable [DecidableEq α] {ch : Chosen α}

section

variable (hInv : PagingInv C s handed)
include hInv

theorem pagingAccess_spec {permission : Word} (hUser : s.UserVa C v)
    (hRun : pagingAccess C ch permission v s = .ok t) : ∃ handed', PagingInv C t handed' ∧
    SameView C s t ∧ KeepsReady C s t ∧ t.InMemory C (pageOf (vpn v)) := by
  unfold pagingAccess at hRun
  dsimp only at hRun
  split at hRun
  · rename_i hValid
    cases hRun
    exact ⟨handed, hInv, SameView.refl C s, fun _ hReady => hReady, hUser.2, hValid.1⟩
  · rcases bind_ok hRun with ⟨u, hFault, hRun⟩
    rcases pagingHandlePageFault_spec hInv hUser.2 hFault with ⟨p, handed', hNext, hRecorded⟩
    split at hRun
    · cases hRun
      exact ⟨handed', hNext, hRecorded.view, hRecorded.keepsReady hInv,
        hRecorded.exchanged.inMemory⟩
    · cases hRun

theorem userLoad_spec (hShows : Shows C s m) (hUser : s.UserVa C v)
    (hRun : userLoad C ch v s = .ok (b, t)) :
    b = m v ∧ ∃ handed', PagingInv C t handed' ∧ SameView C s t ∧ KeepsReady C s t := by
  rcases bind_ok hRun with ⟨u, hAccess, hRun⟩
  rcases pagingAccess_spec hInv hUser hAccess with ⟨handed', hNext, hView, hKeeps, hIn⟩
  cases hRun
  refine ⟨?_, handed', hNext, hView, hKeeps⟩
  rw [← hIn.contents]
  exact hView.shows hShows v ((hView.userVa_iff v).mpr hUser)

theorem userStore_spec (hShows : Shows C s m) (hUser : s.UserVa C v)
    (hRun : userStore C ch v b s = .ok t) :
    ∃ handed', PagingInv C t handed' ∧ Shows C t (update m v b) ∧ KeepsReady C s t := by
  rcases bind_ok hRun with ⟨u, hAccess, hRun⟩
  rcases pagingAccess_spec hInv hUser hAccess with ⟨handed', hNext, hView, hKeeps, hIn⟩
  cases hRun
  rcases hNext.store (hView.shows hShows) hUser.1 hIn rfl with ⟨hInv', hShows', hReady'⟩
  exact ⟨handed', hInv', hShows', fun hShallow hReady => hReady' (hKeeps hShallow hReady)⟩

end

----
-- Runs
----

variable {α : Type} {C : PagingConfig α} [DecidableEq α] {s t : Paging α} {m : FlatMemory}

/- What holds in every state of a run. -/
def Refines (C : PagingConfig α) (s : Paging α) (m : FlatMemory) : Prop :=
  (∃ handed, PagingInv C s handed) ∧ Shows C s m

/- A step of the paged memory is one of the flat memory. -/
theorem refines_step {e : PagingEvent α} (hRefines : Refines C s m)
    (hStep : pagingStep C s e = some t) : Refines C t (flatStep m e) ∧ KeepsReady C s t := by
  rcases hRefines with ⟨⟨handed, hInv⟩, hShows⟩
  cases e with
  | load ch v =>
    simp only [pagingStep, bind_eq_bind, bind_eq_some_iff, guard_eq_some',
      pure_def, some.injEq] at hStep
    rcases hStep with ⟨_, hUser, ⟨b, u⟩, hRun, hState⟩
    subst hState
    rcases userLoad_spec hInv hShows hUser (returnedState_eq_some hRun) with
      ⟨_, handed', hNext, hView, hKeeps⟩
    exact ⟨⟨⟨handed', hNext⟩, hView.shows hShows⟩, hKeeps⟩
  | store ch v b =>
    simp only [pagingStep, bind_eq_bind, bind_eq_some_iff, guard_eq_some'] at hStep
    rcases hStep with ⟨_, hUser, hRun⟩
    rcases userStore_spec hInv hShows hUser (returnedState_eq_some hRun) with
      ⟨handed', hNext, hShows', hKeeps⟩
    exact ⟨⟨⟨handed', hNext⟩, hShows'⟩, hKeeps⟩
  | fault ch v =>
    simp only [pagingStep, bind_eq_bind, bind_eq_some_iff, guard_eq_some'] at hStep
    rcases hStep with ⟨_, hUser, hRun⟩
    rcases pagingHandlePageFault_spec hInv hUser.2 (returnedState_eq_some hRun) with
      ⟨p, handed', hNext, hRecorded⟩
    exact ⟨⟨⟨handed', hNext⟩, hRecorded.view.shows hShows⟩, hRecorded.keepsReady hInv⟩
  | evict ch =>
    simp only [pagingStep, bind_eq_bind, bind_eq_some_iff, pure_def, some.injEq] at hStep
    rcases hStep with ⟨⟨frame, u⟩, hRun, hState⟩
    subst hState
    rcases pagingEvictAndFreeOne_spec hInv (returnedState_eq_some hRun) with
      ⟨handed', hNext, hView, hKeeps, _⟩
    exact ⟨⟨⟨handed', hNext⟩, hView.shows hShows⟩, hKeeps⟩
  | spaGet ch zero =>
    simp only [pagingStep, bind_eq_bind, bind_eq_some_iff, pure_def, some.injEq] at hStep
    rcases hStep with ⟨⟨page, u⟩, hRun, hState⟩
    subst hState
    rcases pagingSpaGet_spec hInv (returnedState_eq_some hRun) with ⟨handed', hNext, hView, hKeeps⟩
    exact ⟨⟨⟨handed', hNext⟩, hView.shows hShows⟩, hKeeps⟩

theorem refines_run {m₀ : FlatMemory} {events : List (PagingEvent α)} (hStart : Refines C s m₀)
    (hRun : Runs.exec (pagingStep C) s events = some t) : Refines C t (lastStored m₀ events) := by
  have hGuarded : Runs.Guarded (pagingStep C) (fun _ _ => True) s events :=
    fun _ _ _ _ _ _ => trivial
  have hNext : ∀ pre u e u', Runs.exec (pagingStep C) s pre = some u →
      Refines C u (lastStored m₀ pre) → True → pagingStep C u e = some u' →
      Refines C u' (lastStored m₀ (pre ++ [e])) := by
    intro pre u e u' _ hRefines _ hStep
    unfold lastStored
    rw [List.foldl_append]
    exact (refines_step hRefines hStep).1
  exact Runs.exec_history hStart hNext hGuarded hRun

end Keystone.Eyrie
