import Keystone.Sm.Regions

/-
  What `create_enclave` and `destroy_enclave` do to a machine between calls.

  A create either has no effect or fills a free slot, defines two regions and locks every hart out
  of the first one. A destroy either has no effect or gives both regions back, after wiping the
  private one.
-/

----
-- Creation
----

namespace Keystone

open Function (update)
open Option (bind_some some)
open ByteMemory
open Machine (freeRegion onEveryHart setEnclave setMem setPmp setState)
open Owner (rid)

variable {eid region h : Nat} {args : CreateArgs}

variable (P : Platform) (K : Crypto) (m : Machine)

/- The slot that a create fills. -/
def createdSlot (h eid : Nat) (args : CreateArgs)
    (region sharedRegion : Nat) : Enclave where
  state := .fresh
  regions := update (update (m.enclaves eid).regions 0 ⟨region, .epm⟩) 1 ⟨sharedRegion, .utm⟩
  hash :=
    K.hash (validateAndHashEpm (memset m.mem args.utmRegion.paddr 0
        args.utmRegion.size) args.params)
  params := args.params
  nThread := 0
  thread := cleanState (m.enclaves eid).thread (m.harts h).csrs

/- The machine after a successful create. -/
def Machine.created (h eid : Nat) (args : CreateArgs)
    (region sharedRegion : Nat) (t : PmpTable) : Machine :=
  { m with
    pmp := t
    mem :=
      memset m.mem args.utmRegion.paddr 0
        args.utmRegion.size
    harts := fun k =>
      { m.harts k with pmp := pmpSetBank P (t.regions region) pmpNoPerm (m.harts k).pmp }
    enclaves :=
      update m.enclaves eid
        (createdSlot K m h eid args region sharedRegion) }

/- The slot and the regions of a successful create. -/
structure CreateAccepted (args : CreateArgs)
    (eid region sharedRegion : Nat) (t t' : PmpTable) : Prop where
  args_valid : isCreateArgsValid args = true
  slot_lt : eid < P.enclMax
  slot_free : (m.enclaves eid).state = .invalid
  epm : RegionDefined P m.pmp args.epmRegion.paddr args.epmRegion.size .any false region t
  utm : RegionDefined P t args.utmRegion.paddr args.utmRegion.size .bottom false sharedRegion t'

variable {P : Platform} {K : Crypto} {m : Machine}

theorem slot_ne_of_state {e e' : Nat} {state state' : EnclaveState}
    (hState : (m.enclaves e).state = state) (hState' : (m.enclaves e').state = state')
    (hNe : state ≠ state') : e ≠ e' := by
  rintro rfl
  exact hNe (hState.symm.trans hState')

theorem enclAllocEid_cases {slot : Option Nat} {m' : Machine}
    (hAlloc : enclAllocEid P m = (slot, m')) : (slot = none ∧ m' = m) ∨ ∃ eid, slot = some eid ∧
    eid < P.enclMax ∧ (m.enclaves eid).state = .invalid ∧ m' = m.setState eid .allocated := by
  unfold enclAllocEid at hAlloc
  split at hAlloc
  · rename_i eid hFind
    right
    have hState := List.find?_some hFind
    have hMem := List.mem_of_find?_eq_some hFind
    simp only [Prod.mk.injEq] at hAlloc
    exact ⟨eid, hAlloc.1.symm, List.mem_range.mp hMem, of_decide_eq_true hState, hAlloc.2.symm⟩
  · left
    simp only [Prod.mk.injEq] at hAlloc
    exact ⟨hAlloc.1.symm, hAlloc.2.symm⟩

theorem enclFreeEid_allocated (hFree : (m.enclaves eid).state = .invalid) :
    enclFreeEid (m.setState eid .allocated) eid = m := by
  have hSlot : { m.enclaves eid with state := .invalid } = m.enclaves eid := by
    rw [← hFree]
  simp [enclFreeEid, setState, setEnclave, hSlot]

theorem createFreeRegion_eq {start size : Word} {t : PmpTable} (hInv : TableInv P m.pmp)
    (hFree : (m.enclaves eid).state = .invalid)
    (hDef : RegionDefined P m.pmp start size .any false region t) (ret : SmError) :
    createFreeRegion ((m.setState eid .allocated).setPmp t) eid region ret = ⟨ret, none, m⟩ := by
  rcases hDef.addsEntry with ⟨_, _, _, hAdds⟩
  have hValid : isPmpRegionValid t region = true := by
    rw [hAdds.valid]
    simp
  have hFreed : ((m.setState eid .allocated).setPmp t).freeRegion region =
      m.setState eid .allocated := by
    simp only [freeRegion, setPmp, pmpRegionFreeAtomic, hValid, Bool.not_true,
      Bool.false_eq_true, if_false, hDef.release_eq hInv]
    rfl
  rw [createFreeRegion, hFreed, createFreeEid, enclFreeEid_allocated hFree]

theorem createSetup_eq {sharedRegion : Nat} (hValid : isPmpRegionValid m.pmp region = true)
    (hReg : (m.pmp.regions region).regIdx < P.pmpNReg) :
    createSetup P m h args eid region sharedRegion = some (.success, createMetadata
      (cleanEnclaveMemory (m.onEveryHart (pmpSetBank P (m.pmp.regions region) pmpNoPerm))
      args.utmRegion.paddr args.utmRegion.size)
      h eid region sharedRegion args.params) := by
  have hSet := pmpSetKeystone_valid hValid hReg pmpNoPerm
  have hPerm : pmpNoPerm &&& pmpAllPerm = pmpNoPerm := by
    decide
  rw [hPerm] at hSet
  simp [createSetup, pmpSetGlobal, hValid, hSet]

/- Everything a call of `create_enclave` can do. -/
theorem createEnclave_cases {r : CreateRet} (hInv : TableInv P m.pmp)
    (hCreate : createEnclave P K m h args = some r) :
    (r.ret ≠ .success ∧ r.eid = none ∧ r.machine = m) ∨ ∃ eid region sharedRegion t t',
    CreateAccepted P m args eid region sharedRegion t t' ∧
    r = ⟨.success, some eid, m.created P K h eid args region sharedRegion t'⟩ := by
  unfold createEnclave at hCreate
  split at hCreate
  · cases hCreate
    left
    simp
  rename_i hArgs
  rcases hAlloc : enclAllocEid P m with ⟨slot, m₁⟩
  rw [hAlloc] at hCreate
  rcases enclAllocEid_cases hAlloc with ⟨hNone, hSame⟩ | ⟨eid, hSome, hLt, hFree, hSame⟩
  · subst hNone
    subst hSame
    cases hCreate
    left
    simp
  subst hSome
  subst hSame
  simp only [bind, Option.bind_eq_some_iff] at hCreate
  rcases hCreate with ⟨epm, hEpm, hRest⟩
  rcases pmpRegionInit_cases hEpm with ⟨hRet, hTable⟩ | ⟨hRet, region, hRid, hEpmDef⟩
  · -- no room for the private region
    simp only [hRet, ne_eq, not_false_eq_true, if_true, pure, some.injEq] at hRest
    subst hRest
    left
    refine ⟨by simp [createFreeEid], rfl, ?_⟩
    rw [hTable]
    exact enclFreeEid_allocated hFree
  · simp only [hRet, ne_eq, not_true, if_false, hRid, bind_some, Option.bind_eq_some_iff] at hRest
    rcases hRest with ⟨utm, hUtm, hRest⟩
    rcases pmpRegionInit_cases hUtm with ⟨hRet', hTable'⟩ | ⟨hRet', shared, hRid', hUtmDef⟩
    · -- no room for the shared region
      simp only [hRet', not_false_eq_true, if_true, pure, some.injEq] at hRest
      subst hRest
      left
      rw [hTable']
      have hUnwind := createFreeRegion_eq hInv hFree hEpmDef .pmpFailure
      rw [show ((m.setState eid .allocated).setPmp epm.table).setPmp
            ((m.setState eid .allocated).setPmp epm.table).pmp =
          (m.setState eid .allocated).setPmp epm.table
          from rfl, hUnwind]
      simp
    · right
      rcases hUtmDef.addsEntry with ⟨_, _, _, hUtmAdds⟩
      rcases hEpmDef.addsEntry with ⟨_, _, _, hEpmAdds⟩
      have hEpmValid : isPmpRegionValid epm.table region = true := by
        rw [hEpmAdds.valid]
        simp
      have hNe : region ≠ shared := by
        intro hEq
        have hFresh := hUtmDef.fresh
        rw [← hEq] at hFresh
        rw [show ((m.setState eid .allocated).setPmp epm.table).pmp = epm.table from rfl,
          hEpmValid] at hFresh
        cases hFresh
      have hValid : isPmpRegionValid utm.table region = true := by
        rw [hUtmAdds.valid]
        simp [setPmp, hEpmValid]
      have hReg : (utm.table.regions region).regIdx < P.pmpNReg := by
        rw [hUtmAdds.regions_ne hNe]
        exact hEpmDef.regIdx_lt
      simp only [hRet', not_true, if_false, hRid', bind_some] at hRest
      rw [createSetup_eq hValid hReg] at hRest
      simp only [bind_some, ne_eq, not_true, if_false, platformCreateEnclave, createFinish,
        validateAndHashEnclave, some.injEq] at hRest
      refine ⟨eid, region, shared, epm.table, utm.table, ⟨by simpa using hArgs, hLt, hFree, hEpmDef,
          hUtmDef⟩, ?_⟩
      rw [← hRest]
      simp [Machine.created, createdSlot, createMetadata, cleanEnclaveMemory, setEnclave,
        setState, setMem, setPmp,
        onEveryHart]

----
-- Destruction
----

/- The machine after a successful destroy. -/
def Machine.destroyed (P : Platform) (m : Machine) (eid : Nat) : Machine :=
  let e := m.enclaves eid
  let epm := m.pmp.regions (rid m (.epm eid))
  { m with
    pmp :=
      (m.pmp.release (rid m (.epm eid))).release
        (rid m (.utm eid))
    mem := memset m.mem epm.addr 0 epm.size
    harts := fun k =>
      { m.harts k with pmp := pmpUnsetBank P epm (m.harts k).pmp }
    enclaves :=
      update m.enclaves eid
        { e with
          state := .invalid
          nThread := 0
          params := RuntimeParams.zero
          regions := fun i =>
            if i < P.enclaveRegionsMax then
              { e.regions i with type := .invalid }
            else e.regions i } }

theorem range_enclaveRegionsMax (P : Platform) :
    ∃ rest, List.range P.enclaveRegionsMax = 0 :: 1 :: rest ∧ ∀ i ∈ rest, 2 ≤ i := by
  obtain ⟨k, hk⟩ : ∃ k, P.enclaveRegionsMax = k + 2 :=
    ⟨P.enclaveRegionsMax - 2, (Nat.sub_add_cancel P.two_le_enclaveRegionsMax).symm⟩
  refine ⟨(List.range k).map (· + 2), ?_, ?_⟩
  · rw [hk]
    simp [List.range_succ_eq_map, Function.comp_def]
  · intro i hi
    rcases List.mem_map.mp hi with ⟨j, _, hj⟩
    omega

theorem destroyRegion_skips (xs : List Nat)
    (hSkip : ∀ i ∈ xs, ((m.enclaves eid).regions i).type = .invalid ∨
      ((m.enclaves eid).regions i).type = .utm) :
    xs.foldlM (fun m i => destroyRegion P m eid i) m = some m := by
  induction xs with
  | nil => rfl
  | cons i xs ih =>
    have hHead := hSkip i List.mem_cons_self
    have hStep : destroyRegion P m eid i = some m := by
      unfold destroyRegion
      rw [if_pos hHead]
    rw [List.foldlM_cons, hStep]
    exact ih fun j hj => hSkip j (List.mem_cons_of_mem _ hj)

theorem destroyRegion_epm (hType : ((m.enclaves eid).regions 0).type = .epm)
    (hValid : isPmpRegionValid m.pmp (rid m (.epm eid)) = true)
    (hReg : (m.pmp.regions (rid m (.epm eid))).regIdx < P.pmpNReg) : destroyRegion P m eid 0 =
      let epm := m.pmp.regions (rid m (.epm eid))
      some (((m.setMem (memset m.mem epm.addr 0 epm.size)).onEveryHart (pmpUnsetBank P epm)).setPmp
        (m.pmp.release (rid m (.epm eid)))) := by
  have hUnset := pmpUnset_valid hValid hReg
  simp only [rid] at hValid hUnset ⊢
  simp [destroyRegion, hType, pmpUnsetGlobal, setMem, hValid, hUnset, pmpRegionGetAddr,
    pmpRegionGetSize, freeRegion,
    onEveryHart, pmpRegionFreeAtomic]

theorem getEnclaveRegionIndex_utm (hShape : SlotShape (m.enclaves eid).regions) :
    getEnclaveRegionIndex P m eid .utm = some 1 := by
  rcases range_enclaveRegionsMax P with ⟨rest, hRange, _⟩
  unfold getEnclaveRegionIndex
  rw [hRange]
  simp [hShape.epm, hShape.utm]

/- The machine before its private region is wiped. -/
def Machine.marked (m : Machine) (eid : Nat) : Machine := m.setState eid .destroying

/- The machine behind the loop over the memory regions. -/
def Machine.erased (P : Platform) (m : Machine) (eid : Nat) : Machine :=
  let epm := m.pmp.regions (rid m (.epm eid))
  (((m.marked eid).setMem (memset m.mem epm.addr 0 epm.size)).onEveryHart
      (pmpUnsetBank P epm)).setPmp (m.pmp.release (rid m (.epm eid)))

theorem marked_regions (m : Machine) (eid : Nat) : ((m.marked eid).enclaves eid).regions =
    (m.enclaves eid).regions := by
  simp [Machine.marked, setState, setEnclave]

theorem platformDestroy_marked (m : Machine) (eid : Nat) :
    (m.setState eid .destroying).setEnclave eid (platformDestroyEnclave
      ((m.setState eid .destroying).enclaves eid)) =
    m.marked eid := by
  simp [Machine.marked, setEnclave, setState, platformDestroyEnclave]

section

variable (hInv : RegionInv P m) (hState : (m.enclaves eid).state ≠ .invalid)
include hInv hState

theorem destroyRegions_marked :
    (List.range P.enclaveRegionsMax).foldlM (fun m i => destroyRegion P m eid i) (m.marked eid) =
    some (m.erased P eid) := by
  have hShape := hInv.shape eid hState
  have hEpm := hInv.valid (.epm eid) hState
  have hReg := hInv.regIdx_lt (o := .epm eid) hState
  have hSlot := marked_regions m eid
  rcases range_enclaveRegionsMax P with ⟨rest, hRange, hRest⟩
  rw [hRange, List.foldlM_cons, destroyRegion_epm (m := m.marked eid)
      (by rw [hSlot]; exact hShape.epm)
      (by simp only [rid, hSlot]; exact hEpm)
      (by simp only [rid, hSlot]; exact hReg)]
  simp only [bind, bind_some]
  rw [destroyRegion_skips]
  · simp only [rid, hSlot, Machine.erased]
    rfl
  · intro i hi
    have hType : ((m.enclaves eid).regions i).type = .invalid ∨
        ((m.enclaves eid).regions i).type = .utm := by
      rcases List.mem_cons.mp hi with hOne | hMem
      · rw [hOne]
        exact .inr hShape.utm
      · exact .inl (hShape.rest i (hRest i hMem))
    simpa [setPmp, onEveryHart, setMem, hSlot] using hType

theorem destroyFinish_erased :
    enclFreeEid (destroyMetadata P (destroyUtm P (m.erased P eid) eid) eid) eid =
    m.destroyed P eid := by
  have hUtm := hInv.valid (.utm eid) hState
  have hNe : rid m (.utm eid) ≠ rid m (.epm eid) := by
    intro hEq
    cases hInv.inj (.utm eid) (.epm eid) hState hState hEq
  have hFreeUtm : isPmpRegionValid (m.pmp.release (rid m (.epm eid)))
      (rid m (.utm eid)) = true := by
    rw [isPmpRegionValid_release, hUtm]
    simp [hNe]
  have hShape : SlotShape ((m.erased P eid).enclaves eid).regions := by
    change SlotShape ((m.marked eid).enclaves eid).regions
    rw [marked_regions]
    exact hInv.shape eid hState
  unfold destroyUtm
  rw [getEnclaveRegionIndex_utm hShape]
  simp only [rid] at hFreeUtm ⊢
  simp [Machine.destroyed, Machine.erased, Machine.marked,
    destroyMetadata, enclFreeEid, freeRegion,
    pmpRegionFreeAtomic, setState,
    setEnclave, setPmp, setMem,
    onEveryHart, hFreeUtm, rid]

end

theorem destroyable_used (hOk : destroyable P m eid = true) :
    (m.enclaves eid).state ≠ .invalid := by
  intro hEq
  simp [destroyable, enclaveExists, hEq, EnclaveState.code] at hOk

theorem destroyEnclave_eq (hInv : RegionInv P m) (eid : Nat) : destroyEnclave P m eid =
    if destroyable P m eid then
    some (.success, m.destroyed P eid)
    else some (.notDestroyable, m) := by
  unfold destroyEnclave destroyCheck
  by_cases hOk : destroyable P m eid = true
  · have hState := destroyable_used hOk
    simp only [hOk, if_true]
    rw [platformDestroy_marked, destroyRegions_marked hInv hState]
    simp only [bind, bind_some, pure]
    rw [destroyFinish_erased hInv hState]
  · simp only [hOk, Bool.false_eq_true, if_false]

end Keystone
