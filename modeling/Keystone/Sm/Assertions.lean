import Keystone.Lib.Total
import Keystone.Sm.Lifecycle

/-
  The host cannot hang the monitor.

  A failing `sm_assert` hangs the hart. Those of the search, of the region initializations and of
  the functions that write the registers never fail: every region that the table holds stands in a
  register that the switches list, and the two callers of `pmp_region_init` check what it asserts.
  So every call returns, with any arguments, from every state the monitor reaches.
-/

----
-- Listed Registers
----

namespace Keystone

open Riscv Total

variable {P : Platform} {t : PmpTable} {m : Machine}

/- Every region stands in an implemented register. -/
def Listed (P : Platform) (t : PmpTable) : Prop :=
  ∀ i, isPmpRegionValid t i = true → (t.regions i).regIdx < P.pmpNReg

theorem Listed.congr {t' : PmpTable} (hListed : Listed P t) (hSame : t' = t) : Listed P t' := by
  rw [hSame]
  exact hListed

theorem RegionInv.listed (hInv : RegionInv P m) : Listed P m.pmp := by
  intro i hValid
  rcases hInv.owner i hValid with ⟨o, hLive, hRid⟩
  have hLt := hInv.regIdx_lt hLive
  rw [Owner.region, hRid] at hLt
  exact hLt

section

variable (hListed : Listed P t)
include hListed

theorem Listed.define {start size : Word} {priority : PmpPriority} {allowOverlap : Bool} {i : Nat}
    {t' : PmpTable} (hDef : RegionDefined P t start size priority allowOverlap i t') :
    Listed P t' := by
  rcases hDef.addsEntry with ⟨_, _, _, hAdds⟩
  intro j hValid
  rcases hAdds.valid_cases hValid with hEq | ⟨hNe, hOld⟩
  · rw [hEq]
    exact hDef.regIdx_lt
  · rw [hAdds.regions_ne hNe]
    exact hListed j hOld

theorem Listed.free (i : Nat) : Listed P (pmpRegionFreeAtomic t i).2 := by
  unfold pmpRegionFreeAtomic
  split
  · exact hListed
  · intro j hValid
    rw [isPmpRegionValid_release] at hValid
    simp only [Bool.and_eq_true, decide_eq_true_eq] at hValid
    rw [regions_release_ne t hValid.2]
    exact hListed j hValid.1

theorem Listed.set (rid : Nat) (perm : Byte) :
    Returns (pmpSetKeystone P t rid perm) fun _ => True := by
  cases hValid : isPmpRegionValid t rid with
  | false =>
    refine ⟨(.pmpRegionInvalid, id), ?_, trivial⟩
    have hBit : Bits.testBit t.on64.regionDefBitmap rid = false := hValid
    simp [pmpSetKeystone, pmpSetKeystoneOn, hBit]
  | true => exact ⟨_, pmpSetKeystone_valid hValid (hListed rid hValid) perm, trivial⟩

theorem Listed.unset (rid : Nat) :
    Returns (pmpUnset P t rid) fun _ => True := by
  cases hValid : isPmpRegionValid t rid with
  | false =>
    refine ⟨(.pmpRegionInvalid, id), ?_, trivial⟩
    have hBit : Bits.testBit t.on64.regionDefBitmap rid = false := hValid
    simp [pmpUnset, pmpUnsetOn, hBit]
  | true => exact ⟨_, pmpUnset_valid hValid (hListed rid hValid), trivial⟩

/- The assertions of the region initializations, with a check for overlaps. A success has a region
   index. -/
theorem Listed.init (start size : Word) (priority : PmpPriority) :
    Returns (pmpRegionInit P t start size priority false) fun r =>
    Listed P r.table ∧ (r.ret = .success → ∃ i, r.rid = some i) := by
  cases hInit : pmpRegionInit P t start size priority false with
  | none => exact absurd hInit (pmpRegionInit_ne_none (.inl rfl))
  | some r =>
    refine .pure ?_
    rcases pmpRegionInit_cases hInit with ⟨hFailed, hSame⟩ | ⟨_, i, hRid, hDef⟩
    · rw [hSame]
      exact ⟨hListed, fun hRet => absurd hRet hFailed⟩
    · exact ⟨hListed.define hDef, fun _ => ⟨i, hRid⟩⟩

end

variable {h eid : Nat}

section

variable (hListed : Listed P m.pmp)
include hListed

theorem pmpSetOn_returns (h rid : Nat) (perm : Byte) :
    Returns (pmpSetOn P m h rid perm) fun m' => m'.pmp = m.pmp := by
  refine (hListed.set rid perm).bind ?_
  rintro ⟨_, writes⟩ _
  exact .pure rfl

theorem pmpSetGlobal_returns (rid : Nat) (perm : Byte) :
    Returns (pmpSetGlobal P m rid perm) fun r => r.2.pmp = m.pmp := by
  unfold pmpSetGlobal
  split
  · exact .pure rfl
  · refine (hListed.set rid perm).bind ?_
    rintro ⟨_, writes⟩ _
    exact .pure rfl

theorem pmpUnsetGlobal_returns (rid : Nat) :
    Returns (pmpUnsetGlobal P m rid) fun r => r.2.pmp = m.pmp := by
  unfold pmpUnsetGlobal
  split
  · exact .pure rfl
  · refine (hListed.unset rid).bind ?_
    rintro ⟨_, writes⟩ _
    exact .pure rfl

theorem setEnclaveRegions_returns (h eid : Nat) (perm : Byte) :
    Returns (setEnclaveRegions P m h eid perm) fun m' => m'.pmp = m.pmp := by
  refine Returns.foldlM ?_ _ rfl
  intro m' memid hSame
  dsimp only
  split
  · refine (pmpSetOn_returns ?_ h _ perm).mono ?_
    · rw [hSame]
      exact hListed
    · intro m'' hNext
      rw [hNext, hSame]
  · exact .pure hSame

theorem contextSwitchToEnclave_returns (h : Nat) (regs : TrapRegs) (eid : Nat) (load : Bool) :
    Returns (contextSwitchToEnclave P m h regs eid load) fun _ => True := by
  refine (pmpSetOn_returns (by exact hListed) h _ _).bind ?_
  intro m' hSame
  have hListed' : Listed P m'.pmp := hListed.congr hSame
  refine (setEnclaveRegions_returns hListed' h eid _).bind ?_
  intro m'' _
  exact .pure trivial

theorem contextSwitchToHost_returns (h : Nat) (regs : TrapRegs) (eid : Nat) (returnOnResume : Bool)
    :
    Returns (contextSwitchToHost P m h regs eid returnOnResume) fun _ => True := by
  refine (setEnclaveRegions_returns hListed h eid _).bind ?_
  intro m' hSame
  have hListed' : Listed P m'.pmp := hListed.congr hSame
  refine (pmpSetOn_returns hListed' h _ _).bind ?_
  intro m'' _
  exact .pure trivial

end

----
-- Creation And Destruction
----

variable {K : Crypto}

theorem enclAllocEid_pmp (P : Platform) (m : Machine) : (enclAllocEid P m).2.pmp = m.pmp := by
  unfold enclAllocEid
  split <;> rfl

section

variable (hListed : Listed P m.pmp)
include hListed

theorem createUnset_returns (eid region shared : Nat) (ret : SmError) :
    Returns (createUnset P m eid region shared ret) fun _ => True := by
  refine (pmpUnsetGlobal_returns hListed region).bind ?_
  rintro ⟨_, m'⟩ _
  exact .pure trivial

theorem createFinish_returns (eid region shared : Nat) :
    Returns (createFinish P K m eid region shared) fun _ => True := by
  unfold createFinish
  dsimp only
  split
  · exact createUnset_returns (by exact hListed) _ _ _ _
  · exact .pure trivial

theorem createSetup_returns (h : Nat) (args : CreateArgs) (eid region shared : Nat) :
    Returns (createSetup P m h args eid region shared) fun r => Listed P r.2.pmp := by
  refine (pmpSetGlobal_returns hListed region _).bind ?_
  rintro ⟨ret, m'⟩ hSame
  have hListed' : Listed P m'.pmp := hListed.congr hSame
  dsimp only
  split
  · exact .pure hListed'
  · exact .pure hListed'

theorem createEnclave_returns (h : Nat) (args : CreateArgs) :
    Returns (createEnclave P K m h args) fun _ => True := by
  unfold createEnclave
  split
  · exact .pure trivial
  have hSame := enclAllocEid_pmp P m
  split
  · exact .pure trivial
  · rename_i eid m' hAlloc
    rw [hAlloc] at hSame
    have hListed' : Listed P m'.pmp := hListed.congr hSame
    refine (hListed'.init _ _ _).bind ?_
    rintro r ⟨hTable, hRid⟩
    dsimp only
    split
    · exact .pure trivial
    · rename_i hOk
      rcases hRid (Decidable.not_not.mp hOk) with ⟨region, hRegion⟩
      rw [hRegion]
      refine ((hTable : Listed P (m'.setPmp r.table).pmp).init
        _ _ _).bind ?_
      rintro s ⟨hTable', hRid'⟩
      split
      · exact .pure trivial
      · rename_i hOk'
        rcases hRid' (Decidable.not_not.mp hOk') with ⟨shared, hShared⟩
        rw [hShared]
        refine (createSetup_returns (by exact hTable') h args eid region shared).bind ?_
        rintro ⟨setup, m''⟩ hListed''
        split
        · exact .pure trivial
        · split
          · exact createUnset_returns (by exact hListed'')
              _ _ _ _
          · exact createFinish_returns (by exact hListed'')
              _ _ _

theorem destroyRegion_returns (eid i : Nat) :
    Returns (destroyRegion P m eid i) fun m' => Listed P m'.pmp := by
  unfold destroyRegion
  dsimp only
  split
  · exact .pure hListed
  · refine (pmpUnsetGlobal_returns (by exact hListed) _).bind ?_
    rintro ⟨_, m'⟩ hSame
    have hListed' : Listed P m'.pmp := hListed.congr hSame
    exact .pure (hListed'.free _)

theorem destroyEnclave_returns (eid : Nat) :
    Returns (destroyEnclave P m eid) fun _ => True := by
  unfold destroyEnclave destroyCheck
  split
  · exact .pure trivial
  · rename_i m' hCheck
    have hListed' : Listed P m'.pmp := by
      split at hCheck
      · cases hCheck
        exact hListed
      · cases hCheck
    refine (Returns.foldlM (fun m i hInv => destroyRegion_returns hInv eid i) _
      (by exact hListed')).bind ?_
    intro m'' _
    exact .pure trivial

end

----
-- Calls And Runs
----

theorem runEnclave_returns (hListed : Listed P m.pmp) (h : Nat) (regs : TrapRegs) (eid : Nat) :
    Returns (runEnclave P m h regs eid) fun _ => True := by
  unfold runEnclave runCheck
  split
  · exact .pure trivial
  · rename_i m' hCheck
    have hListed' : Listed P m'.pmp := by
      split at hCheck
      · cases hCheck
        exact hListed
      · cases hCheck
    refine (contextSwitchToEnclave_returns hListed' h regs eid true).bind ?_
    rintro ⟨_, _⟩ _
    exact .pure trivial

theorem resumeEnclave_returns (hListed : Listed P m.pmp) (h : Nat) (regs : TrapRegs) (eid : Nat) :
    Returns (resumeEnclave P m h regs eid) fun _ => True := by
  unfold resumeEnclave resumeCheck
  split
  · exact .pure trivial
  · rename_i m' hCheck
    have hListed' : Listed P m'.pmp := by
      split at hCheck
      · cases hCheck
        exact hListed
      · cases hCheck
    refine (contextSwitchToEnclave_returns hListed' h regs eid false).bind ?_
    rintro ⟨_, _⟩ _
    exact .pure trivial

theorem leaveCheck_pmp (m : Machine) (eid : Nat) : (leaveCheck m eid).2.pmp = m.pmp := by
  unfold leaveCheck
  split <;> rfl

section

variable (hListed : Listed P m.pmp)
include hListed

theorem sbiSmExit_returns (h : Nat) (regs : TrapRegs) (retval : Word) :
    Returns (sbiSmExit P m h regs retval) fun _ => True := by
  have hSame := leaveCheck_pmp m (m.cpus h).eid
  unfold sbiSmExit exitEnclave
  split
  · exact .pure trivial
  · rename_i m' hCheck
    rw [hCheck] at hSame
    have hListed' : Listed P m'.pmp := hListed.congr hSame
    rcases contextSwitchToHost_returns hListed' h regs
      (m.cpus h).eid false with ⟨⟨regs', m''⟩, hRun, _⟩
    rw [hRun]
    exact .pure trivial

theorem sbiSmStop_returns (h : Nat) (regs : TrapRegs) (request : Word) :
    Returns (sbiSmStop P m h regs request) fun _ => True := by
  have hSame := leaveCheck_pmp m (m.cpus h).eid
  unfold sbiSmStop stopEnclave
  split
  · exact .pure trivial
  · rename_i m' hCheck
    rw [hCheck] at hSame
    have hListed' : Listed P m'.pmp := hListed.congr hSame
    rcases contextSwitchToHost_returns hListed' h regs
      (m.cpus h).eid (decide (request = stopEdgeCallHost))
      with ⟨⟨regs', m''⟩, hRun, _⟩
    rw [hRun]
    exact .pure trivial

theorem sbiDispatch_returns (keys : Keys) (env : Env) (h : Nat) (funcid : Word) (regs : TrapRegs) :
    Returns (sbiDispatch P K keys env m h funcid regs) fun _ => True := by
  unfold sbiDispatch
  split
  · -- creation
    unfold sbiSmCreate
    split
    · exact .pure trivial
    · exact (createEnclave_returns hListed h _).bind fun _ _ => .pure trivial
  split
  · -- destruction
    refine (destroyEnclave_returns hListed _).bind ?_
    rintro ⟨_, _⟩ _
    exact .pure trivial
  split
  · -- run
    refine (runEnclave_returns hListed h regs _).bind ?_
    rintro ⟨_, _, _⟩ _
    exact .pure trivial
  split
  · -- resume
    refine (resumeEnclave_returns hListed h regs _).bind ?_
    rintro ⟨_, _, _⟩ _
    exact .pure trivial
  split
  · exact .pure trivial
  split
  · exact .pure trivial
  split
  · exact .pure trivial
  split
  · exact sbiSmStop_returns hListed h regs _
  split
  · exact sbiSmExit_returns hListed h regs _
  split
  · exact .pure trivial
  · exact .pure trivial

theorem takeTrap_returns (K : Crypto) (keys : Keys) (a : Arrival) :
    Returns (takeTrap P K keys m a) fun _ => True := by
  have hArrive : Listed P (m.arrive a).pmp := hListed
  unfold takeTrap
  dsimp only
  split
  · unfold sbiEcallHandler
    split
    · exact .pure trivial
    split
    · exact .pure trivial
    · exact sbiDispatch_returns hArrive _ _ _ _ _
  · split
    · exact sbiSmStop_returns hArrive _ _ _
    · exact .pure trivial
  · split
    · exact sbiSmExit_returns hArrive _ _ _
    · exact .pure trivial

end

/- From every state that is reached after initialization, every call with any arguments returns. -/
theorem no_assertion_fails {keys : Keys} {boot : Nat → Hart} {mem : Memory} {m₀ : Machine}
    {as : List Arrival} (hInit : smInit P boot mem = some m₀)
    (hRun : Runs.exec (smStep P K keys) m₀ as = some m) (a : Arrival) :
    ∃ out m', takeTrap P K keys m a = some (out, m') := by
  have hListed := (regionInv_run hInit hRun).listed
  rcases takeTrap_returns hListed K keys a with ⟨⟨out, m'⟩, hTrap, _⟩
  exact ⟨out, m', hTrap⟩

/- A request for all of memory, with the size `-1UL`. -/
def allMemoryCreate : Arrival :=
  { createTrap with
    env :=
      { sampleEnv with
        createArgs := some
          { sampleArgs with epmRegion := ⟨0, allMemory⟩, utmRegion := ⟨0, allMemory⟩ } } }

/- It is refused after an enclave was created and run. -/
theorem no_assertion_fails_allMemory : ∃ m₀ m, sampleInit = some m₀ ∧
    Runs.exec sampleStep m₀ sampleSession = some m ∧
    ∃ out m', takeTrap .generic sampleCrypto sampleKeys m allMemoryCreate = some (out, m') := by
  rcases sampleSession_runs with ⟨m₀, m, _, hInit, hExec⟩
  exact ⟨m₀, m, hInit, hExec, no_assertion_fails hInit hExec allMemoryCreate⟩

end Keystone
