import Keystone.Driver.Liveness

/-
  What `mmap` hands to user space.

  Before finalization a mapping is a page of the private memory at an offset that the user chooses;
  afterwards it is the start of the shared memory. Neither the offset nor the existence of a shared
  memory is checked, and an id may lead to an enclave that was freed.

  Main declarations:
    * `sized_run_all`
    * `MapsInside`
    * `Unfreed`
    * `RequestInside`
    * `mmap_inside_iff`
-/

----
-- Sizes
----

namespace Keystone.Driver

open Function (update update_of_ne update_self)
open Runs (exec)
open Lifetimes

variable {e : KEnclave} {filep filp : Nat} {enclp : IoctlCreate} {ret : SbiRet}
variable {pfn vsize base size : Word}

/- An object whose private memory was initialized. -/
structure WellSized (s : State) (enclave : Nat) : Prop where
  lt : enclave < s.arena.next
  epm : ∃ epm p, (s.enclave enclave).epm = some epm ∧ epm < s.arena.next ∧
      (s.epm epm).ptr = some p ∧ p < s.arena.next ∧
      (s.epm epm).pa = (s.pages p).pa ∧ (s.epm epm).size.toNat < 2 ^ 45

/- Every id leads to such an object, freed or not. -/
def Sized (s : State) : Prop := ∀ ueid enclave, s.idr ueid = some enclave → WellSized s enclave

variable {C : KernelConfig} {s s' : State} {enclave : Nat}

theorem sized_initial : Sized initial := by
  intro ueid enclave hIdr
  cases hIdr

theorem WellSized.grown (hSized : WellSized s enclave) (hGrown : Grown s s') :
    WellSized s' enclave := by
  refine ⟨Nat.lt_of_lt_of_le hSized.lt hGrown.next, ?_⟩
  rcases hSized.epm with ⟨epm, p, hEpm, hLt, hPtr, hPages, hRest⟩
  refine ⟨epm, p, ?_, Nat.lt_of_lt_of_le hLt hGrown.next, ?_⟩
  · rw [hGrown.enclave enclave hSized.lt]
    exact hEpm
  · rw [hGrown.epm epm hLt, hGrown.pages p hPages]
    exact ⟨hPtr, Nat.lt_of_lt_of_le hPages hGrown.next, hRest⟩

theorem WellSized.setEnclave {e : Nat} {x : KEnclave} (hSized : WellSized s e)
    (hEpm : x.epm = (s.enclave enclave).epm) :
    WellSized { s with enclave := update s.enclave enclave x } e := by
  refine ⟨hSized.lt, ?_⟩
  by_cases hEq : e = enclave
  · subst hEq
    simp only [update_self, hEpm]
    exact hSized.epm
  · simp only [update_of_ne hEq]
    exact hSized.epm

theorem Sized.grown (hSized : Sized s) (hGrown : Grown s s') : Sized s' := by
  intro ueid enclave hIdr
  rw [hGrown.idr] at hIdr
  exact (hSized ueid enclave hIdr).grown hGrown

theorem Sized.setPrivateData (hSized : Sized s) (privateData : Nat → Word) :
    Sized { s with privateData := privateData } := by
  intro ueid enclave hIdr
  have hOld := hSized ueid enclave hIdr
  exact ⟨hOld.lt, hOld.epm⟩

theorem grown_freeAll (s : State) (is : List Nat) :
    Grown s { s with arena := s.arena.freeAll is } := by
  refine ⟨?_, fun _ _ => rfl, fun _ _ => rfl, fun _ _ => rfl, fun _ _ => rfl, rfl, rfl⟩
  exact Nat.le_of_eq (Arena.freeAll_next _ _).symm

theorem Created.wellSized (hCreated : Created s s') : WellSized s' s.arena.next := by
  have hNext : s'.arena.next = s.arena.next + 3 := by
    rw [hCreated.arena]
    rfl
  refine ⟨by omega, s.arena.next + 1, s.arena.next + 2, ?_, by omega, hCreated.ptr, by omega,
    hCreated.pa, hCreated.size⟩
  rw [hCreated.enclave]

----
-- Handlers Keep The Sizes
----

section

variable (hSized : Sized s)
include hSized

theorem sized_create {env : CreateEnv} {room : Bool} :
    Sized (keystoneCreateEnclave C env room s filep enclp).2.2 := by
  unfold keystoneCreateEnclave
  rcases hCreate : createEnclave C env s enclp.minPages with ⟨r, t⟩
  rcases createEnclave_cases hCreate with ⟨hGrown, _, hCases⟩
  have hOld := hSized.grown hGrown
  cases r with
  | none => exact hOld
  | some enclave =>
    rcases hCases with ⟨h, _⟩ | ⟨h, _⟩ | ⟨h, _⟩ | ⟨hNext, hCreated⟩
    · cases h
    · cases h
    · cases h
    cases hNext
    unfold enclaveIdrAlloc
    dsimp only
    split
    · exact hOld.setPrivateData _
    · rename_i ueid _
      refine Sized.setPrivateData (s := { t with idr := _ }) ?_ _
      intro u e hIdr
      have hIdr : update t.idr ueid (some s.arena.next) u = some e := hIdr
      by_cases hEq : u = ueid
      · rw [hEq, update_self] at hIdr
        cases hIdr
        exact ⟨hCreated.wellSized.lt, hCreated.wellSized.epm⟩
      · rw [update_of_ne hEq] at hIdr
        exact ⟨(hOld u e hIdr).lt, (hOld u e hIdr).epm⟩

theorem sized_finalize : Sized (keystoneFinalizeEnclave s enclp ret).2 := by
  unfold keystoneFinalizeEnclave
  split
  · exact hSized
  rename_i enclave _
  have hContents : ∀ x : KEnclave, x.epm = (s.enclave enclave).epm →
        Sized { s with enclave := update s.enclave enclave x } := by
    intro x hEpm u e hIdr
    exact (hSized u e hIdr).setEnclave hEpm
  dsimp only
  split
  · rw [destroyEnclave_eq]
    refine Sized.grown ?_ (grown_freeAll _ _)
    exact hContents _ rfl
  · simp only [update_self, Function.update_idem]
    intro u e hIdr
    have hNew := hContents { s.enclave enclave with eid := ret.value, isInit := false } rfl u e hIdr
    exact ⟨hNew.lt, hNew.epm⟩

theorem sized_destroyById (ueid : Nat) (ret : SbiRet) :
    Sized (keystoneDestroyEnclaveById s ueid ret).2 := by
  have hRemove : ∀ t : State, Sized t → Sized (enclaveIdrRemove t ueid) := by
    intro t hT u e hIdr
    have hIdr : update t.idr ueid none u = some e := hIdr
    by_cases hEq : u = ueid
    · rw [hEq, update_self] at hIdr
      cases hIdr
    · rw [update_of_ne hEq] at hIdr
      exact ⟨(hT u e hIdr).lt, (hT u e hIdr).epm⟩
  have hSm : ∀ eid, Sized (smDestroyed s eid) := by
    intro eid u e hIdr
    exact ⟨(hSized u e hIdr).lt, (hSized u e hIdr).epm⟩
  unfold keystoneDestroyEnclaveById
  split
  · exact hSized
  split
  · split
    · exact hSized
    · apply hRemove
      rw [destroyEnclave_eq]
      exact (hSm _).grown (grown_freeAll _ _)
  · apply hRemove
    rw [destroyEnclave_eq]
    exact hSized.grown (grown_freeAll _ _)

theorem sized_destroy : Sized (keystoneDestroyEnclave s filep enclp ret).2 := by
  have hById := sized_destroyById hSized (idOf enclp.eid) ret
  unfold keystoneDestroyEnclave
  split
  · rename_i t hEq
    rw [hEq] at hById
    exact hById.setPrivateData _
  · rename_i e t _ hEq
    rw [hEq] at hById
    exact hById

theorem sized_release (file : Nat) (ret : SbiRet) : Sized (keystoneRelease s file ret).2 := by
  unfold keystoneRelease
  dsimp only
  split
  · exact hSized
  split
  · exact hSized
  split
  · exact sized_destroyById hSized _ ret
  · exact hSized

theorem sized_run {arg : IoctlRun} : Sized (keystoneRunEnclave s arg ret).2.2 := by
  unfold keystoneRunEnclave
  split
  · exact hSized
  split
  · exact hSized
  · exact hSized

theorem sized_utmInit {env : UtmEnv} : Sized (utmInitIoctl C env s enclp).2.2 := by
  rcases utmInitIoctl_cases C env s enclp with hSame | ⟨enclave, x, t, _, hx, hState, hGrown,
      hEnclave, _⟩
  · rw [hSame]
    exact hSized
  rw [hState]
  intro u e hIdr
  refine (hSized.grown hGrown u e hIdr).setEnclave ?_
  rw [hx, hEnclave]

/- Every step keeps the sizes. -/
theorem sized_step {e : Event} (hStep : step C s e = some s') : Sized s' := by
  cases e with
  | opened file privateData =>
    cases hStep
    exact hSized.setPrivateData _
  | mmap filp vma =>
    cases hStep
    exact hSized
  | release file ret =>
    cases hStep
    exact sized_release hSized file ret
  | ioctl call =>
    cases hStep
    rcases keystoneIoctl_state C s call with hSame | ⟨_, _, r, hCall, hState⟩
    · rw [hSame]
      exact hSized
    rw [hState]
    generalize call.cmd = cmd at hCall
    cases cmd with
    | create enclp env room =>
      cases hCall
      exact sized_create hSized
    | finalize enclp ret =>
      cases hCall
      exact sized_finalize hSized
    | destroy enclp ret =>
      cases hCall
      exact sized_destroy hSized
    | run arg ret | resume arg ret =>
      cases hCall
      exact sized_run hSized
    | utmInit enclp env =>
      cases hCall
      exact sized_utmInit hSized
    | unknown => cases hCall

end

theorem sized_run_all {es : List Event} (hRun : exec (step C) initial es = some s) : Sized s :=
  Runs.exec_invariant (fun _ _ _ hSized hStep => sized_step hSized hStep) sized_initial hRun

----
-- Mappings
----

/- A range of page frames inside `size` bytes at `base`. -/
def Inside (base size pfn vsize : Word) : Prop :=
  base.toNat ≤ pfn.toNat * 4096 ∧ pfn.toNat * 4096 + vsize.toNat ≤ base.toNat + size.toNat

/- Pages of the private memory before finalization, of the shared memory afterwards, that were not
   given back to the kernel. -/
def InsideEnclave (s : State) (e : KEnclave) (pfn vsize : Word) : Prop :=
  if e.isInit then
    ∃ epm p, e.epm = some epm ∧ (s.epm epm).ptr = some p ∧ s.arena.Live p ∧
        Inside (s.pages p).pa (s.epm epm).size pfn vsize
  else
    ∃ utm p, e.utm = some utm ∧ (s.utm utm).ptr = some p ∧ s.arena.Live p ∧
        Inside (s.pages p).pa (s.utm utm).size pfn vsize

theorem insideEnclave_init (hInit : e.isInit = true) : InsideEnclave s e pfn vsize ↔
    ∃ epm p, e.epm = some epm ∧ (s.epm epm).ptr = some p ∧ s.arena.Live p ∧
    Inside (s.pages p).pa (s.epm epm).size pfn vsize := by
  rw [InsideEnclave, if_pos hInit]

theorem insideEnclave_finalized (hInit : e.isInit = false) : InsideEnclave s e pfn vsize ↔
    ∃ utm p, e.utm = some utm ∧ (s.utm utm).ptr = some p ∧ s.arena.Live p ∧
    Inside (s.pages p).pa (s.utm utm).size pfn vsize := by
  rw [InsideEnclave, if_neg (by rw [hInit]; decide)]

/- The objects that the handler reads: the enclave, and then the structure of one of its memories.
   -/
def mmapReads (s : State) (filp : Nat) (vma : Vma) : List Nat :=
  match getEnclaveById s (idOf (s.privateData filp)) with
  | none => []
  | some enclave =>
    let e := s.enclave enclave
    if e.isInit then
      if pageSize < vma.vmEnd - vma.vmStart then [enclave]
      else enclave :: e.epm.toList
    else enclave :: e.utm.toList

/- A request that reads no freed object, and is refused or maps memory of the caller's enclave. -/
def MapsInside (C : KernelConfig) (s : State) (filp : Nat) (vma : Vma) : Prop :=
  (∀ i ∈ mmapReads s filp vma, s.arena.Live i) ∧
    match keystoneMmap C s filp vma with
    | .einval => True
    | .oops => False
    | .remap pfn vsize =>
      ∃ enclave, getEnclaveById s (idOf (s.privateData filp)) = some enclave ∧
          InsideEnclave s (s.enclave enclave) pfn vsize

/- Nothing that the request needs was freed: the enclave, and the memory with its pages that is to
   be mapped. -/
def Unfreed (s : State) (filp : Nat) (vma : Vma) : Prop :=
  ∀ enclave, getEnclaveById s (idOf (s.privateData filp)) = some enclave →
      let e := s.enclave enclave
      let vsize := vma.vmEnd - vma.vmStart
      s.arena.Live enclave ∧
        if e.isInit then
          vsize ≤ pageSize → ∀ i ∈ epmOwned s e.epm, s.arena.Live i
        else
          ∀ utm, e.utm = some utm → s.arena.Live utm ∧
              (vsize ≤ (s.utm utm).size → ∀ p, (s.utm utm).ptr = some p → s.arena.Live p)

/- Requests of the kind the handler expects: before finalization a page at an offset in the private
   memory, afterwards an enclave that has a shared memory. -/
def RequestInside (s : State) (filp : Nat) (vma : Vma) : Prop :=
  ∀ enclave, getEnclaveById s (idOf (s.privateData filp)) = some enclave →
      let e := s.enclave enclave
      let vsize := vma.vmEnd - vma.vmStart
      if e.isInit then
        vsize ≤ pageSize → ∀ epm, e.epm = some epm → (vma.vmPgoff <<< pageShift).toNat +
              vsize.toNat ≤ (s.epm epm).size.toNat
      else
        ∃ utm, e.utm = some utm ∧ (vsize ≤ (s.utm utm).size → (s.utm utm).ptr ≠ none)

theorem inside_offset_iff (pgoff : Word) (hAligned : base.toNat % 4096 = 0)
    (hBase : base.toNat < 2 ^ 56) (hSize : size.toNat < 2 ^ 45) (hPage : vsize.toNat ≤ 4096) :
    Inside base size ((base + (pgoff <<< pageShift)) >>> pageShift) vsize ↔
    (pgoff <<< pageShift).toNat + vsize.toNat ≤ size.toNat := by
  have hOff : (pgoff <<< pageShift).toNat % 4096 = 0 := by
    rw [BitVec.toNat_shiftLeft, Nat.shiftLeft_eq, pageShift]
    omega
  have hLt := (pgoff <<< pageShift).isLt
  generalize pgoff <<< pageShift = off at hOff hLt ⊢
  have hPfn : ((base + off) >>> pageShift).toNat * 4096 = (base.toNat + off.toNat) % 2 ^ 64 := by
    rw [BitVec.toNat_ushiftRight, BitVec.toNat_add, Nat.shiftRight_eq_div_pow, pageShift]
    omega
  unfold Inside
  -- an offset that wraps around ends below the base
  omega

theorem inside_start (hAligned : base.toNat % 4096 = 0) (hFits : vsize ≤ size) :
    Inside base size (base >>> pageShift) vsize := by
  have hPfn : (base >>> pageShift).toNat * 4096 =
      base.toNat := by
    rw [BitVec.toNat_ushiftRight, Nat.shiftRight_eq_div_pow, pageShift]
    omega
  have hLe := BitVec.le_def.mp hFits
  unfold Inside
  omega

/- Before finalization. The private memory has pages, so only their lifetime and the offset count.
   -/
theorem mapsInside_init
    {epm p : Nat}
    (vma : Vma)
    (hSized : WellSized s enclave)
    (hIdr : getEnclaveById s (idOf (s.privateData filp)) = some enclave)
    (hInit : (s.enclave enclave).isInit = true)
    (hEpm : (s.enclave enclave).epm = some epm)
    (hPtr : (s.epm epm).ptr = some p) :
    MapsInside C s filp vma ↔
      s.arena.Live enclave ∧
        (vma.vmEnd - vma.vmStart ≤ pageSize →
          (s.arena.Live epm ∧ s.arena.Live p) ∧
            (vma.vmPgoff <<< pageShift).toNat + (vma.vmEnd - vma.vmStart).toNat ≤
              (s.epm epm).size.toNat) := by
  rcases hSized.epm with ⟨i, q, hi, _, hq, _, hPa, hSize⟩
  rw [hEpm] at hi
  cases hi
  rw [hPtr] at hq
  cases hq
  unfold MapsInside mmapReads keystoneMmap
  simp only [hIdr, hInit, hEpm, if_true, Option.toList_some]
  by_cases hPage : vma.vmEnd - vma.vmStart ≤ pageSize
  · have hNot : ¬ pageSize < vma.vmEnd - vma.vmStart := BitVec.not_lt.mpr hPage
    have hIff := inside_offset_iff vma.vmPgoff (s.pages p).aligned (s.pages p).inReach hSize
      (BitVec.le_def.mp hPage)
    simp only [if_neg hNot, hPage, forall_const, hPa, List.mem_cons,
      List.not_mem_nil, or_false, forall_eq_or_imp, forall_eq]
    rw [← hIff]
    constructor
    · rintro ⟨⟨hObject, hLive⟩, e, hSome, hInside⟩
      cases hSome
      rcases (insideEnclave_init hInit).mp hInside with ⟨i, q, hi, hq, hPages, hInside⟩
      rw [hEpm] at hi
      cases hi
      rw [hPtr] at hq
      cases hq
      exact ⟨hObject, ⟨hLive, hPages⟩, hInside⟩
    · rintro ⟨hObject, ⟨hLive, hPages⟩, hInside⟩
      exact ⟨⟨hObject, hLive⟩, enclave, rfl,
        (insideEnclave_init hInit).mpr ⟨epm, p, hEpm, hPtr, hPages, hInside⟩⟩
  · simp [if_pos (BitVec.not_le.mp hPage), hPage]

/- After finalization. The shared memory may be missing, and may have no pages. -/
theorem mapsInside_finalized
    (vma : Vma)
    (hIdr : getEnclaveById s (idOf (s.privateData filp)) = some enclave)
    (hInit : (s.enclave enclave).isInit = false) :
    MapsInside C s filp vma ↔
      s.arena.Live enclave ∧
        ∃ utm, (s.enclave enclave).utm = some utm ∧ s.arena.Live utm ∧
          (vma.vmEnd - vma.vmStart ≤ (s.utm utm).size →
            ∃ p, (s.utm utm).ptr = some p ∧ s.arena.Live p) := by
  unfold MapsInside mmapReads keystoneMmap
  simp only [hIdr, hInit, Bool.false_eq_true, if_false]
  cases hUtm : (s.enclave enclave).utm with
  | none => simp
  | some utm =>
    simp only [Option.toList_some, List.mem_cons, List.not_mem_nil, or_false, forall_eq_or_imp,
      forall_eq, Option.some.injEq, exists_eq_left']
    by_cases hFits : vma.vmEnd - vma.vmStart ≤ (s.utm utm).size
    · rw [if_neg (BitVec.not_lt.mpr hFits)]
      simp only [hFits, forall_const, and_assoc]
      refine and_congr_right fun _ => and_congr_right fun _ => ?_
      constructor
      · intro hInside
        rcases (insideEnclave_finalized hInit).mp hInside with ⟨i, p, hi, hPtr, hLive, _⟩
        rw [hUtm] at hi
        cases hi
        exact ⟨p, hPtr, hLive⟩
      · rintro ⟨p, hPtr, hLive⟩
        refine (insideEnclave_finalized hInit).mpr ⟨utm, p, hUtm, hPtr, hLive, ?_⟩
        rw [hPtr]
        exact inside_start (s.pages p).aligned hFits
    · simp [if_pos (BitVec.not_le.mp hFits), hFits]

theorem Sized.mapsInside_iff (hSized : Sized s) (filp : Nat) (vma : Vma) :
    MapsInside C s filp vma ↔ Unfreed s filp vma ∧ RequestInside s filp vma := by
  unfold Unfreed RequestInside
  cases hIdr : getEnclaveById s (idOf (s.privateData filp)) with
  | none => simp [MapsInside, mmapReads, keystoneMmap, hIdr]
  | some enclave =>
    have hEnclave := hSized _ enclave hIdr
    simp only [Option.some.injEq, forall_eq']
    cases hInit : (s.enclave enclave).isInit with
    | true =>
      rcases hEnclave.epm with ⟨epm, p, hEpm, _, hPtr, _⟩
      rw [mapsInside_init vma hEnclave hIdr hInit hEpm hPtr]
      simp only [hEpm, if_true, epmOwned, hPtr, Option.toList_some, List.cons_append,
        List.nil_append, List.mem_cons, List.not_mem_nil, or_false, forall_eq_or_imp, forall_eq,
        Option.some.injEq, forall_eq']
      tauto
    | false =>
      rw [mapsInside_finalized vma hIdr hInit]
      cases hUtm : (s.enclave enclave).utm with
      | none => simp
      | some utm =>
        cases hPtr : (s.utm utm).ptr with
        | none => simp [hPtr, and_assoc]
        | some p => simp [hPtr]

/- The invariant of careful runs keeps everything that an id leads to. -/
theorem Inv.unfreed (hInv : Inv s) (filp : Nat) (vma : Vma) : Unfreed s filp vma := by
  intro enclave hIdr e vsize
  have hLive : ∀ i ∈ owned s enclave, s.arena.Live i := fun i hi => hInv.live hIdr hi
  refine ⟨hLive _ (self_mem_owned s enclave), ?_⟩
  split
  · intro _ i hi
    exact hLive i (mem_owned_of_kept (List.mem_append_left _ hi))
  · intro utm hUtm
    refine ⟨hLive _ (utm_mem_owned hUtm), ?_⟩
    intro _ p hPtr
    apply hLive
    rw [owned, hUtm, utmOwned, hPtr]
    simp

/- After every sequence of events, a request maps memory of the caller's enclave exactly if nothing
   it needs was freed and it is of the expected kind. In a run whose steps are careful nothing that
   an id leads to is freed. -/
theorem mmap_inside_iff
    (C : KernelConfig)
    (es : List Event)
    (s : State)
    (hRun : exec (step C) initial es = some s)
    (filp : Nat)
    (vma : Vma) :
    (MapsInside C s filp vma ↔
        Unfreed s filp vma ∧ RequestInside s filp vma) ∧
      (Runs.Guarded (step C) (Careful C) initial es →
        Unfreed s filp vma) := by
  refine ⟨(sized_run_all hRun).mapsInside_iff filp vma, ?_⟩
  intro hCareful
  have hInv := inv_always hCareful es [] s (List.append_nil es).symm hRun
  exact hInv.unfreed filp vma

theorem mmap_inside_iff_created :
    ∃ s, exec (step plainKernel) initial [createSixteen] = some s ∧
      (MapsInside plainKernel s 0 ⟨0, 4096, 15⟩ ↔
        Unfreed s 0 ⟨0, 4096, 15⟩ ∧ RequestInside s 0 ⟨0, 4096, 15⟩) ∧
      Unfreed s 0 ⟨0, 4096, 15⟩ := by
  have hMaps := mmap_inside_iff plainKernel [createSixteen] _ rfl 0 ⟨0, 4096, 15⟩
  exact ⟨_, rfl, hMaps.1, hMaps.2 careful_createSixteen⟩

/- The seventeenth page of an enclave of sixteen is mapped. An enclave that was finalized without a
   shared memory has its missing pointer followed. After a finalization that the monitor refuses,
   the shared memory that was given back to the kernel is mapped. -/
theorem mmap_outside :
    (∃ s, exec (step plainKernel) initial [createSixteen] = some s ∧
      keystoneMmap plainKernel s 0 ⟨0, 4096, 16⟩ = .remap 0x90010 4096 ∧
      ¬ MapsInside plainKernel s 0 ⟨0, 4096, 16⟩) ∧
    (∃ s, exec (step plainKernel) initial [createSixteen, finalizeFirst ⟨0, 0⟩] = some s ∧
      keystoneMmap plainKernel s 0 ⟨0, 4096, 0⟩ = .oops ∧
      ¬ MapsInside plainKernel s 0 ⟨0, 4096, 0⟩) ∧
    ∃ s, exec (step plainKernel) initial
        [createSixteen, utmInitFirst, finalizeFirst ⟨1, 0⟩] = some s ∧
      keystoneMmap plainKernel s 0 ⟨0, 4096, 0⟩ = .remap 0xa8000 4096 ∧
      (s.utm 3).ptr = some 4 ∧ s.arena.frees 4 = 1 ∧
      ¬ MapsInside plainKernel s 0 ⟨0, 4096, 0⟩ := by
  have hCreated : (exec (step plainKernel) initial [createSixteen]).map (fun s =>
          ((keystoneMmap plainKernel s 0 ⟨0, 4096, 16⟩, getEnclaveById s (idOf (s.privateData 0)),
            (s.enclave 0).isInit), (s.enclave 0).epm, (s.epm 1).ptr, (s.epm 1).size)) =
        some ((.remap 0x90010 4096, some 0, true), some 1, some 2, 0x10000) := by
    decide +kernel
  have hFinalized : (exec (step plainKernel) initial [createSixteen, finalizeFirst ⟨0, 0⟩]).map
        (fun s => keystoneMmap plainKernel s 0 ⟨0, 4096, 0⟩) =
        some .oops := by
    decide +kernel
  have hRefused : (exec (step plainKernel) initial
          [createSixteen, utmInitFirst, finalizeFirst ⟨1, 0⟩]).map (fun s =>
          ((keystoneMmap plainKernel s 0 ⟨0, 4096, 0⟩, getEnclaveById s (idOf (s.privateData 0)),
            (s.enclave 0).isInit), (s.utm 3).ptr, s.arena.frees 4, s.arena.frees 0)) =
        some ((.remap 0xa8000 4096, some 0, false), some 4, 1, 1) := by
    decide +kernel
  rcases Option.map_eq_some_iff.mp hCreated with ⟨s, hRun, hFacts⟩
  rcases Option.map_eq_some_iff.mp hFinalized with ⟨t, hRun', hOops⟩
  rcases Option.map_eq_some_iff.mp hRefused with ⟨u, hRun'', hFacts'⟩
  simp only [Prod.mk.injEq] at hFacts hFacts'
  rcases hFacts with ⟨⟨hRemap, hIdr, hInit⟩, hEpm, hPtr, hSize⟩
  rcases hFacts' with ⟨⟨hRemap', hIdr', hInit'⟩, hPtr', hPages, hObject⟩
  refine ⟨⟨s, hRun, hRemap, ?_⟩, ⟨t, hRun', hOops, ?_⟩, u, hRun'', hRemap', hPtr', hPages, ?_⟩
  · have hSized := sized_run_all hRun _ 0 hIdr
    rw [mapsInside_init _ hSized hIdr hInit hEpm hPtr, hSize]
    rintro ⟨_, hFits⟩
    exact absurd (hFits (by decide)).2 (by decide)
  · rintro ⟨_, hMapped⟩
    rw [hOops] at hMapped
    exact hMapped
  · rw [mapsInside_finalized _ hIdr' hInit']
    rintro ⟨hLive, _⟩
    cases hObject.symm.trans hLive.2

end Keystone.Driver
