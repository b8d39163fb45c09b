import Keystone.Sm.View

/-
  Memory isolation over whole runs.

  Every hart shows the view of its context: the host sees everything but the monitor and the
  enclaves, an enclave sees its own two regions. Each call rewrites registers so that this stays
  true, provided that no two owners claim a register, that the registers were clean at boot and that
  every region ends below the reach of `pmpaddr`.
-/

----
-- Switching The View
----

namespace Keystone

open Runs (Always exec)
open Riscv
open Owner (isBottom rid)
open View (ofCpu)

variable {P : Platform} {m : Machine} {c c' : PmpBank} {eid : Nat}
variable {t t' : PmpTable} {h region shared : Nat} {regs : TrapRegs} {load returnOnResume : Bool}
variable {args : CreateArgs} {a : Arrival} {out : Outcome}
variable {mem : Memory} {as : List Arrival} {m₀ : Machine}

theorem writeRegions_skip {regions : Nat → EnclaveRegion} {perm : Byte} (xs : List Nat)
    (hUnused : ∀ i ∈ xs, (regions i).type = .invalid) :
    writeRegions P t regions perm xs c = some c := by
  induction xs with
  | nil => rfl
  | cons i xs ih =>
    have hHead := hUnused i List.mem_cons_self
    rw [writeRegions, hHead]
    exact ih fun j hj => hUnused j (List.mem_cons_of_mem _ hj)

section

variable (hInv : RegionInv P m) (hUsed : (m.enclaves eid).state ≠ .invalid)
include hInv hUsed

theorem writeRegions_eq
    (perm : Byte) :
    writeRegions P m.pmp (m.enclaves eid).regions perm (List.range P.enclaveRegionsMax) c =
    some (pmpSetBank P (Owner.region m (.utm eid)) (perm &&& pmpAllPerm)
      (pmpSetBank P (Owner.region m (.epm eid)) (perm &&& pmpAllPerm) c)) := by
  have hShape := hInv.shape eid hUsed
  rcases range_enclaveRegionsMax P with ⟨rest, hRange, hRest⟩
  have hEpm := pmpSetKeystone_valid (hInv.valid (.epm eid) hUsed)
    (hInv.regIdx_lt (o := .epm eid) hUsed) perm
  have hUtm := pmpSetKeystone_valid (hInv.valid (.utm eid) hUsed)
    (hInv.regIdx_lt (o := .utm eid) hUsed) perm
  simp only [rid] at hEpm hUtm
  rw [hRange, writeRegions, hShape.epm]
  simp only [ne_eq, reduceCtorEq, not_false_eq_true, if_true]
  rw [hEpm, Option.bind_some, writeRegions, hShape.utm]
  simp only [ne_eq, reduceCtorEq, not_false_eq_true, if_true]
  rw [hUtm, Option.bind_some]
  exact writeRegions_skip rest fun i hi => hShape.rest i (hRest i hi)

theorem enterBank_eq :
    enterBank P m eid c = some (pmpSetBank P (Owner.region m (.utm eid)) pmpAllPerm
      (pmpSetBank P (Owner.region m (.epm eid)) pmpAllPerm
      (pmpSetBank P (Owner.region m .os) pmpNoPerm c))) := by
  have hOs := pmpSetKeystone_valid (hInv.valid .os trivial)
    (hInv.regIdx_lt (o := .os) trivial) pmpNoPerm
  simp only [rid] at hOs
  unfold enterBank
  rw [hOs, Option.bind_some, writeRegions_eq hInv hUsed]
  rfl

theorem leaveBank_eq :
    leaveBank P m eid c = some (pmpSetBank P (Owner.region m .os) pmpAllPerm
      (pmpSetBank P (Owner.region m (.utm eid)) pmpNoPerm
      (pmpSetBank P (Owner.region m (.epm eid)) pmpNoPerm c))) := by
  have hOs := pmpSetKeystone_valid (hInv.valid .os trivial)
    (hInv.regIdx_lt (o := .os) trivial) pmpAllPerm
  simp only [rid] at hOs
  unfold leaveBank
  rw [writeRegions_eq hInv hUsed, Option.bind_some, hOs]
  rfl

end

theorem view_enter (eid : Nat) : ((View.host.set .os pmpNoPerm).set (.epm eid)
      pmpAllPerm).set (.utm eid) pmpAllPerm =
    View.enclave eid := by
  funext o
  cases o with
  | sm => simp [View.set, View.enclave, View.host, isBottom]
  | os => simp [View.set, View.enclave, isBottom]
  | epm e =>
    by_cases hEq : e = eid
    · simp [View.set, View.enclave, isBottom, hEq]
    · simp [View.set, View.enclave, View.host, isBottom, hEq]
  | utm e =>
    by_cases hEq : e = eid
    · simp [View.set, View.enclave, hEq]
    · simp [View.set, View.enclave, isBottom, hEq]

theorem view_leave (eid : Nat) : (((View.enclave eid).set (.epm eid) pmpNoPerm).set
      (.utm eid) pmpNoPerm).set .os pmpAllPerm =
    View.host := by
  funext o
  cases o with
  | sm => simp [View.set, View.enclave, View.host, isBottom]
  | os => simp [View.set, View.host]
  | epm e =>
    by_cases hEq : e = eid
    · simp [View.set, View.host, isBottom, hEq]
    · simp [View.set, View.enclave, View.host, isBottom, hEq]
  | utm e => simp [View.set, View.host, isBottom]

theorem monitorPerm_no : MonitorPerm pmpNoPerm := .inl rfl

theorem monitorPerm_all : MonitorPerm pmpAllPerm := .inr rfl

section

variable (hInv : RegionInv P m) (hAlone : EpmAlone m) (hUsed : (m.enclaves eid).state ≠ .invalid)
include hInv hAlone hUsed

theorem enterBank_shows (hShows : Shows P m View.host c)
    (hBank : enterBank P m eid c = some c') : Shows P m (View.enclave eid) c' := by
  rw [enterBank_eq hInv hUsed] at hBank
  cases hBank
  rw [← view_enter]
  have hOs := Shows.set hInv hAlone hShows (o := .os) trivial monitorPerm_no
  have hEpm := Shows.set hInv hAlone hOs (o := .epm eid) hUsed monitorPerm_all
  exact Shows.set hInv hAlone hEpm (o := .utm eid) hUsed monitorPerm_all

theorem leaveBank_shows (hShows : Shows P m (View.enclave eid) c)
    (hBank : leaveBank P m eid c = some c') : Shows P m View.host c' := by
  rw [leaveBank_eq hInv hUsed] at hBank
  cases hBank
  rw [← view_leave eid]
  have hEpm := Shows.set hInv hAlone hShows (o := .epm eid) hUsed monitorPerm_no
  have hUtm := Shows.set hInv hAlone hEpm (o := .utm eid) hUsed monitorPerm_no
  exact Shows.set hInv hAlone hUtm (o := .os) trivial monitorPerm_all

end

----
-- Invariant
----

/- Every hart shows the view of its context. -/
structure ViewInv (P : Platform) (m : Machine) : Prop where
  life : LifeInv P m
  views : ∀ h, Shows P m (ofCpu (m.cpus h)) (m.harts h).pmp

/- Both regions of a create request end below the reach of the address registers. -/
def CreateWithinReach (a : Arrival) : Prop :=
  ∀ args, a.env.createArgs = some args → args.epmRegion.paddr.toNat +
        args.epmRegion.size.toNat < 2 ^ 56 ∧
      args.utmRegion.paddr.toNat + args.utmRegion.size.toNat < 2 ^ 56

variable {K : Crypto} {keys : Keys} {m' : Machine}

theorem Owner.frame (hPmp : m'.pmp = m.pmp) (hSm : m'.smRegionId = m.smRegionId)
    (hOs : m'.osRegionId = m.osRegionId)
    (hSlots : ∀ eid, SlotKept (m.enclaves eid) (m'.enclaves eid))
    (o : Owner) : (o.Live m' ↔ o.Live m) ∧ o.region m' = o.region m := by
  cases o with
  | sm => simp [Owner.Live, Owner.region, rid, hPmp, hSm]
  | os => simp [Owner.Live, Owner.region, rid, hPmp, hOs]
  | epm eid | utm eid =>
    have hKept := hSlots eid
    simp [Owner.Live, Owner.region, rid, hPmp, hKept.regions, hKept.used]

theorem arrive_owner (a : Arrival) (mem : Memory) (o : Owner) :
    (o.Live ((m.arrive a).setMem mem) ↔ o.Live m) ∧
    o.region ((m.arrive a).setMem mem) = o.region m := by
  cases o with
  | sm | os | epm eid | utm eid => exact ⟨Iff.rfl, rfl⟩

variable {boot : Nat → Hart}

theorem entered_owner (hUsed : (m.enclaves eid).state ≠ .invalid) (o : Owner) :
    let m' := (m.claim eid).entered h eid regs load c
    (o.Live m' ↔ o.Live m) ∧ o.region m' = o.region m := by
  intro m'
  have hPmp : m'.pmp = m.pmp := rfl
  exact Owner.frame hPmp rfl rfl (entered_kept hUsed) o

theorem left_owner (hUsed : (m.enclaves eid).state ≠ .invalid) (o : Owner) :
    let m' := (m.unclaim eid).left h eid regs returnOnResume c
    (o.Live m' ↔ o.Live m) ∧ o.region m' = o.region m := by
  intro m'
  have hPmp : m'.pmp = m.pmp := rfl
  exact Owner.frame hPmp rfl rfl (left_kept hUsed) o

theorem ReachInv.frame (hReach : ReachInv m)
    (hSame : ∀ o : Owner, (o.Live m' ↔ o.Live m) ∧ o.region m' = o.region m) : ReachInv m' := by
  intro o hLive
  rw [(hSame o).2]
  exact hReach o ((hSame o).1.mp hLive)

theorem Shows.frame {v : View} (hShows : Shows P m v c)
    (hSame : ∀ o : Owner, (o.Live m' ↔ o.Live m) ∧ o.region m' = o.region m) : Shows P m' v c :=
  hShows.transfer fun o _ _ => ⟨(hSame o).1, fun _ => (hSame o).2⟩

----
-- Steps
----

section

variable (hInv : RegionInv P m)
variable (hAlone : EpmAlone m)
variable (hViews : ∀ k, Shows P m (ofCpu (m.cpus k)) (m.harts k).pmp)
include hInv hAlone hViews

theorem views_entered
    (hHost : (m.cpus h).isEnclave = false) (hUsed : (m.enclaves eid).state ≠ .invalid)
    (hBank : enterBank P m eid (m.harts h).pmp = some c) :
    let m' := (m.claim eid).entered h eid regs load c
    ∀ k, Shows P m' (ofCpu (m'.cpus k)) (m'.harts k).pmp := by
  intro m' k
  refine Shows.frame ?_ (entered_owner hUsed)
  by_cases hEq : k = h
  · subst hEq
    have hBefore := hViews k
    rw [ofCpu, hHost] at hBefore
    have hAfter := enterBank_shows hInv hAlone hUsed hBefore hBank
    simpa [m', Machine.entered, ofCpu] using hAfter
  · have hBefore := hViews k
    simpa [m', Machine.entered, hEq, Machine.claim, Machine.setEnclave] using hBefore

theorem views_left
    (hIn : (m.cpus h).isEnclave = true) (hUsed : (m.enclaves (m.cpus h).eid).state ≠ .invalid)
    (hBank : leaveBank P m (m.cpus h).eid (m.harts h).pmp = some c) :
    let m' := (m.unclaim (m.cpus h).eid).left h (m.cpus h).eid regs returnOnResume c
    ∀ k, Shows P m' (ofCpu (m'.cpus k)) (m'.harts k).pmp := by
  intro m' k
  refine Shows.frame ?_ (left_owner hUsed)
  by_cases hEq : k = h
  · subst hEq
    have hBefore := hViews k
    rw [ofCpu, hIn] at hBefore
    have hAfter := leaveBank_shows hInv hAlone hUsed hBefore hBank
    simpa [m', Machine.left, ofCpu] using hAfter
  · have hBefore := hViews k
    simpa [m', Machine.left, hEq, Machine.unclaim, Machine.setEnclave] using hBefore

end

theorem View.ofCpu_epm {cpu : CpuState} (hAway : cpu.isEnclave = true → cpu.eid ≠ eid) :
    ofCpu cpu (.epm eid) = some pmpNoPerm ∧ ofCpu cpu (.utm eid) = none := by
  unfold ofCpu
  cases hIn : cpu.isEnclave with
  | false => exact ⟨rfl, rfl⟩
  | true =>
    have hNe : ¬ eid = cpu.eid := fun hEq => hAway hIn hEq.symm
    simp [View.enclave, hNe]

/- Creating: every hart is locked out of the new enclave. -/
theorem views_created (hInv : RegionInv P m) (hAcc : CreateAccepted P m args eid region shared t t')
    (hAlone : EpmAlone (m.created P K h eid args region shared t'))
    (hViews : ∀ k, Shows P m (ofCpu (m.cpus k)) (m.harts k).pmp)
    (hAway : ∀ k, (m.cpus k).isEnclave = true → (m.cpus k).eid ≠ eid) :
    let m' := m.created P K h eid args region shared t'
    ∀ k, Shows P m' (ofCpu (m'.cpus k)) (m'.harts k).pmp := by
  intro m' k
  have hInv' : RegionInv P m' := regionInv_created hInv hAcc
  have hView := View.ofCpu_epm (hAway k)
  have hLive : Owner.Live m' (.epm eid) := by
    simp [m', Owner.Live, created_slot_self, createdSlot]
  -- the old view, without the new owners
  have hOld : Shows P m' ((ofCpu (m.cpus k)).drop (.epm eid)) (m.harts k).pmp := by
    have hDropped : Shows P m ((ofCpu (m.cpus k)).drop (.epm eid)) (m.harts k).pmp := by
      apply (hViews k).congr
      intro o hLive'
      simp only [View.drop]
      split
      · rename_i hEq
        rw [hEq] at hLive'
        exact absurd hAcc.slot_free hLive'
      · rfl
    apply hDropped.transfer
    intro o perm hSome
    have hApart : o.Apart eid := by
      constructor
      · intro hEq
        simp [View.drop, hEq] at hSome
      · intro hEq
        simp [View.drop, hEq, hView.2] at hSome
    refine ⟨(created_owner hApart).2, ?_⟩
    intro hLive'
    exact created_region_old hInv hAcc hApart hLive'
  have hNew := Shows.set hInv' hAlone hOld hLive monitorPerm_no
  have hRegion : Owner.region m' (.epm eid) = t'.regions region := by
    rw [Owner.region, created_rid_epm]
    rfl
  rw [hRegion] at hNew
  refine hNew.congr ?_
  intro o _
  by_cases hEq : o = .epm eid
  · rw [hEq]
    simp only [View.set, if_true]
    exact hView.1
  · simp only [View.set, View.drop, hEq, if_false,
      isBottom, Bool.false_and, Bool.false_eq_true]
    rfl

theorem views_destroyed (hInv : RegionInv P m) (hAlone : EpmAlone m)
    (hUsed : (m.enclaves eid).state ≠ .invalid)
    (hViews : ∀ k, Shows P m (ofCpu (m.cpus k)) (m.harts k).pmp)
    (hAway : ∀ k, (m.cpus k).isEnclave = true → (m.cpus k).eid ≠ eid) : let m' := m.destroyed P eid
    ∀ k, Shows P m' (ofCpu (m'.cpus k)) (m'.harts k).pmp := by
  intro m' k
  have hView := View.ofCpu_epm (hAway k)
  have hLive : Owner.Live m (.epm eid) := hUsed
  have hCleared := Shows.unset hInv hAlone (hViews k) hLive
  have hMoved : Shows P m' ((ofCpu (m.cpus k)).drop (.epm eid)) (m'.harts k).pmp := by
    apply hCleared.transfer
    intro o perm hSome
    have hApart : o.Apart eid := by
      constructor
      · intro hEq
        simp [View.drop, hEq] at hSome
      · intro hEq
        simp [View.drop, hEq, hView.2] at hSome
    have hIff : Owner.Live m' o ↔ Owner.Live m o := by
      rw [destroyed_live_iff]
      simp [hApart]
    refine ⟨hIff, ?_⟩
    intro hLive'
    exact (destroyed_old hInv hUsed (hIff.mp hLive') hApart).2.2
  refine hMoved.congr ?_
  intro o hLive'
  simp only [View.drop]
  split
  · rename_i hEq
    rw [hEq] at hLive'
    exact absurd destroyed_state_self hLive'
  · rfl

----
-- Runs
----

theorem LifeInv.away (hInv : LifeInv P m) (hState : (m.enclaves eid).state ≠ .running) (k : Nat)
    (hIn : (m.cpus k).isEnclave = true) : (m.cpus k).eid ≠ eid := by
  intro hEq
  rcases hInv.stages with ⟨s, hRep⟩
  apply hState
  rw [← hEq, hRep.state, hRep.resident hIn]
  rfl

section

variable (hInv : RegionInv P m) (hReach : ReachInv m)
include hInv hReach

theorem reachInv_created
    (hAcc : CreateAccepted P m args eid region shared t t')
    (hEpm : args.epmRegion.paddr.toNat + args.epmRegion.size.toNat < 2 ^ 56)
    (hUtm : args.utmRegion.paddr.toNat + args.utmRegion.size.toNat < 2 ^ 56) :
    ReachInv (m.created P K h eid args region shared t') := by
  intro o hLive
  rcases o.cases_apart eid with hEq | hEq | hApart
  · left
    rw [hEq, created_region_epm hAcc, hAcc.epm.range.1, hAcc.epm.range.2.1]
    exact hEpm
  · left
    rw [hEq, created_region_utm, hAcc.utm.range.1, hAcc.utm.range.2.1]
    exact hUtm
  · rw [created_region_old hInv hAcc hApart hLive]
    exact hReach o (created_old hInv hAcc hApart hLive).1

theorem reachInv_destroyed
    (hUsed : (m.enclaves eid).state ≠ .invalid) : ReachInv (m.destroyed P eid) := by
  intro o hLive
  rcases (destroyed_live_iff o).mp hLive with ⟨hOld, hApart⟩
  rw [(destroyed_old hInv hUsed hOld hApart).2.2]
  exact hReach o hOld

theorem reachInv_effect (hCreate : CreateWithinReach a)
    (hEffect : Effect P K m a out m') : ReachInv m' := by
  have hArrive : ReachInv (m.arrive a) := hReach
  cases hEffect with
  | quiet mem _ _ => exact hReach.frame (arrive_owner a _)
  | created args eid region shared t t' _ _ hArgs hAcc =>
    have hBounds := hCreate args hArgs
    exact reachInv_created (hInv.arrive a) hArrive hAcc hBounds.1 hBounds.2
  | destroyed eid _ _ _ hOk =>
    exact reachInv_destroyed (hInv.arrive a) hArrive (destroyable_used (m := m.arrive a) hOk)
  | entered eid load c _ _ _ hOk _ =>
    exact hArrive.frame (entered_owner (Enterable.used (m := m.arrive a) hOk))
  | left kind regs c _ _ hOk _ =>
    exact hArrive.frame (left_owner (used_of_running (m := m.arrive a) hOk))

end

/- One trap keeps every hart's view. -/
theorem viewInv_effect (hInv : ViewInv P m) (hAlone : EpmAlone m) (hAlone' : EpmAlone m')
    (hEffect : Effect P K m a out m') : ViewInv P m' := by
  have hLife' := lifeInv_effect hInv.life hEffect
  have hRegions := hInv.life.regions.arrive a
  have hAloneA : EpmAlone (m.arrive a) := hAlone
  have hQuiet : ∀ mem k, Shows P ((m.arrive a).setMem mem) (ofCpu ((m.arrive a).cpus k))
      ((m.arrive a).harts k).pmp := by
    intro mem k
    rw [arrive_bank]
    exact (hInv.views k).frame (arrive_owner a mem)
  have hViews : ∀ k, Shows P (m.arrive a) (ofCpu ((m.arrive a).cpus k))
      ((m.arrive a).harts k).pmp :=
    hQuiet (m.arrive a).mem
  have hLifeA : LifeInv P (m.arrive a) := by
    rcases hInv.life.stages with ⟨s, hRep⟩
    exact ⟨hRegions, s, hRep.arrive a⟩
  cases hEffect with
  | quiet mem _ _ => exact ⟨hLife', hQuiet _⟩
  | created args eid region shared t t' _ _ _ hAcc =>
    refine ⟨hLife', ?_⟩
    apply views_created hRegions hAcc hAlone' hViews
    apply hLifeA.away
    rw [hAcc.slot_free]
    decide
  | destroyed eid _ _ _ hOk =>
    refine ⟨hLife', ?_⟩
    apply views_destroyed hRegions hAloneA (destroyable_used (m := m.arrive a) hOk) hViews
    apply hLifeA.away
    rcases hLifeA.stages with ⟨s, hRep⟩
    rw [hRep.state]
    rcases hRep.destroyable hOk with hStage | hStage
    · rw [hStage]
      decide
    · rw [hStage]
      decide
  | entered eid load c hHost _ _ hOk hBank =>
    have hBank' : enterBank P (m.arrive a) eid ((m.arrive a).harts a.hart).pmp = some c := by
      rw [arrive_bank]
      exact hBank
    exact ⟨hLife', views_entered hRegions hAloneA hViews
      hHost (Enterable.used (m := m.arrive a) hOk) hBank'⟩
  | left kind regs c hIn _ hOk hBank =>
    have hUsed := used_of_running (m := m.arrive a) hOk
    have hBank' : leaveBank P (m.arrive a) ((m.arrive a).cpus a.hart).eid
        ((m.arrive a).harts a.hart).pmp = some c := by
      rw [arrive_bank]
      exact hBank
    rcases hInv.life.stages with ⟨s, hRep⟩
    exact ⟨hLife', views_left hRegions hAloneA hViews (hRep.inEnclave hIn) hUsed hBank'⟩

section

variable (hInit : smInit P boot mem = some m)
include hInit

theorem smInit_owner {o : Owner} (hLive : o.Live m) : o = .sm ∨ o = .os := by
  rcases smInit_cases hInit with ⟨_, _, _, hSlots, _, _⟩
  have hNone : ∀ eid, (m.enclaves eid).state = .invalid := by
    intro eid
    rw [hSlots]
    rfl
  cases o with
  | sm => exact .inl rfl
  | os => exact .inr rfl
  | epm eid | utm eid => exact absurd (hNone eid) hLive

theorem reachInv_smInit : ReachInv m := by
  intro o hLive
  have hDesc := (regionInv_smInit hInit).desc o hLive
  rcases smInit_owner hInit hLive with hEq | hEq
  · subst hEq
    left
    rw [hDesc.1, hDesc.2.1]
    exact P.smm_reach
  · subst hEq
    exact .inr hDesc.2.1

theorem smInit_bank (hUnlocked : Unlocked P (boot h).pmp) (n : Nat) :
    (m.harts h).pmp n = if usesReg (Owner.region m .os) n then
    entryFor (Owner.region m .os) pmpAllPerm n
    else if usesReg (Owner.region m .sm) n then
    entryFor (Owner.region m .sm) pmpNoPerm n
    else pmpInit P (boot h).pmp n := by
  have hInv := regionInv_smInit hInit
  rcases smInit_cases hInit with ⟨_, _, _, _, _, hHarts⟩
  have hCleared := pmpInit_open hUnlocked
  have hSm := pmpSetBank_apply hCleared (hInv.wellFormed (o := .sm) trivial) monitorPerm_no
    (hInv.regIdx_lt (o := .sm) trivial)
  have hOpen := hCleared.setBank (hInv.wellFormed (o := .sm) trivial) monitorPerm_no
    (hInv.regIdx_lt (o := .sm) trivial)
  have hOs := pmpSetBank_apply hOpen (hInv.wellFormed (o := .os) trivial) monitorPerm_all
    (hInv.regIdx_lt (o := .os) trivial)
  rw [(hHarts h).2]
  refine (hOs n).trans ?_
  split
  · rfl
  · exact hSm n

end

theorem viewInv_smInit (hBoot : ∀ h, CleanBoot P (boot h).pmp)
    (hInit : smInit P boot mem = some m) : ViewInv P m := by
  have hLife := lifeInv_smInit hInit
  rcases smInit_cases hInit with ⟨_, _, _, _, hCpus, hHarts⟩
  have hAlone : EpmAlone m := by
    intro eid o r hEpm
    rcases smInit_owner hInit hEpm with hEq | hEq
    · cases hEq
    · cases hEq
  refine ⟨hLife, ?_⟩
  intro h
  have hClear : Shows P m View.empty (pmpInit P (boot h).pmp) := by
    refine ⟨pmpInit_unlocked (hBoot h), ?_, ?_, ?_⟩
    · intro o perm _ hView
      cases hView
    · intro o perm _ hView
      cases hView
    · intro n hn _
      exact pmpInit_silent (hBoot h) hn
  have hSm := Shows.set hLife.regions hAlone hClear (o := .sm) trivial monitorPerm_no
  have hOs := Shows.set hLife.regions hAlone hSm (o := .os) trivial monitorPerm_all
  rw [(hHarts h).2, hCpus h]
  refine hOs.congr ?_
  intro o hLive
  rcases smInit_owner hInit hLive with hEq | hEq
  · subst hEq
    simp [ofCpu, View.host, View.set, isBottom]
  · subst hEq
    simp [ofCpu, View.host, View.set]

/- Memory isolation of a machine, for every hart and every physical address: the host reaches what
   is neither the monitor's nor private to an enclave, and a hart that runs an enclave reaches the
   two regions of that enclave. -/
def Isolated (P : Platform) (m : Machine) : Prop :=
  ∀ (h : Nat) (access : Access) (a : Nat), a < 2 ^ 56 → ((m.cpus h).isEnclave = false →
      (allows P.pmpNReg (m.harts h).pmp access a = true ↔ ¬ (Owner.region m .sm).Covers a ∧
          ∀ eid, (m.enclaves eid).state ≠ .invalid → ¬ (Owner.region m (.epm eid)).Covers a)) ∧
    (∀ eid, m.cpus h = ⟨true, eid⟩ → (allows P.pmpNReg (m.harts h).pmp access a = true ↔
        (Owner.region m (.epm eid)).Covers a ∨ (Owner.region m (.utm eid)).Covers a))

theorem ViewInv.isolated (hInv : ViewInv P m) (hAlone : EpmAlone m) (hReach : ReachInv m) :
    Isolated P m := by
  intro h access a ha
  have hShows := hInv.views h
  refine ⟨?_, ?_⟩
  · intro hHost
    rw [ofCpu, hHost] at hShows
    exact hShows.allows_host_iff hInv.life.regions hAlone hReach ha access
  · intro eid hCpu
    rw [hCpu] at hShows
    rcases hInv.life.stages with ⟨s, hRep⟩
    have hUsed : (m.enclaves eid).state ≠ .invalid := by
      rw [hRep.state, (hRep.home eid h).mpr hCpu]
      simp [Stage.state]
    exact hShows.allows_enclave_iff hInv.life.regions hReach hUsed ha access

theorem viewInv_run (hBoot : ∀ h, CleanBoot P (boot h).pmp) (hInit : smInit P boot mem = some m₀)
    (hExcl : Always (smStep P K keys) (ExclusiveRegisters P) m₀ as)
    (hRun : exec (smStep P K keys) m₀ as = some m) : ViewInv P m ∧ EpmAlone m := by
  have hInv : ViewInv P m := by
    refine Runs.exec_invariant_of_guarded ?_ (viewInv_smInit hBoot hInit) hExcl.guarded hRun
    intro t a t' hs hOk hStep
    rcases smStep_effect hs.life.regions hStep with ⟨out, _, hEffect⟩
    have hRegions' := regionInv_effect hs.life.regions hEffect
    exact viewInv_effect hs ((exclusiveRegisters_iff hs.life.regions).mp hOk.1)
      ((exclusiveRegisters_iff hRegions').mp (hOk.2 t' hStep)) hEffect
  refine ⟨hInv, ?_⟩
  exact (exclusiveRegisters_iff hInv.life.regions).mp (hExcl.last hRun)

theorem reachInv_run (hInit : smInit P boot mem = some m₀)
    (hCreate : ∀ a ∈ as, CreateWithinReach a) (hRun : exec (smStep P K keys) m₀ as = some m) :
    ReachInv m := by
  have hGuarded : Runs.Guarded (smStep P K keys) (fun _ a => CreateWithinReach a) m₀ as := by
    intro pre a post t hSplit _
    exact hCreate a (by rw [hSplit]; simp)
  have hKeeps : ∀ t a t', RegionInv P t ∧ ReachInv t → CreateWithinReach a →
      smStep P K keys t a = some t' → RegionInv P t' ∧ ReachInv t' := by
    intro t a t' hs hOk hStep
    rcases smStep_effect hs.1 hStep with ⟨out, _, hEffect⟩
    exact ⟨regionInv_effect hs.1 hEffect, reachInv_effect hs.1 hs.2 hOk hEffect⟩
  exact (Runs.exec_invariant_of_guarded hKeeps ⟨regionInv_smInit hInit, reachInv_smInit hInit⟩
    hGuarded hRun).2

/- Isolation in every state of a run with clean registers at boot, in which every created region
   ends below the reach of the registers and no register gets two owners. -/
theorem isolated_run (boot : Nat → Hart) (mem : Memory) (as : List Arrival) (m₀ m : Machine)
    (hBoot : ∀ h, CleanBoot P (boot h).pmp) (hInit : smInit P boot mem = some m₀)
    (hCreate : ∀ a ∈ as, CreateWithinReach a)
    (hExcl : Always (smStep P K keys) (ExclusiveRegisters P) m₀ as)
    (hRun : exec (smStep P K keys) m₀ as = some m) : Isolated P m := by
  rcases viewInv_run hBoot hInit hExcl hRun with ⟨hViews, hAlone⟩
  exact hViews.isolated hAlone (reachInv_run hInit hCreate hRun)

theorem exclusive_without_destroy (hInit : smInit P boot mem = some m₀)
    (hNone : ∀ a ∈ as, a.trap ≠ .ecall sbiSmDestroyEnclave) :
    Always (smStep P K keys) (ExclusiveRegisters P) m₀ as := by
  have hOwn : Always (smStep P K keys) (RegisterOwnership P) m₀ as := by
    apply registerOwnership_always hInit
    intro pre a post t hSplit _ hAccepted
    exact hNone a (by rw [hSplit]; simp) hAccepted.call
  intro pre post t hSplit hPre
  exact (hOwn pre post t hSplit hPre).exclusive

theorem sampleBoot_clean (h : Nat) : CleanBoot .generic (sampleBoot h).pmp := by
  intro i _
  simp [sampleBoot, PmpEntry.locked]

theorem sampleSession_within (a : Arrival) (ha : a ∈ sampleSession) : CreateWithinReach a := by
  intro args hArgs
  have hSample : args = sampleArgs := by
    simp only [sampleSession, List.mem_cons, List.not_mem_nil, or_false] at ha
    rcases ha with hEq | hEq
    · subst hEq
      cases hArgs
      rfl
    · subst hEq
      cases hArgs
      rfl
  subst hSample
  decide

theorem sampleSession_exclusive (hInit : sampleInit = some m₀) :
    Always sampleStep
    (ExclusiveRegisters .generic) m₀ sampleSession := by
  apply exclusive_without_destroy hInit
  intro a ha
  simp only [sampleSession, List.mem_cons, List.not_mem_nil, or_false] at ha
  rcases ha with hEq | hEq
  · subst hEq
    decide
  · subst hEq
    decide

theorem isolated_run_sampleSession : ∃ m₀ m, sampleInit = some m₀ ∧
    exec sampleStep m₀ sampleSession = some m ∧
    (m.cpus 1).isEnclave = true ∧
    Isolated .generic m := by
  have hIn : (sampleRun sampleSession).map (fun m => (m.cpus 1).isEnclave) = some true := by
    decide +kernel
  rcases Option.map_eq_some_iff.mp hIn with ⟨m, hRun, hEnclave⟩
  rcases Option.bind_eq_some_iff.mp hRun with ⟨m₀, hInit, hExec⟩
  exact ⟨m₀, m, hInit, hExec, hEnclave, isolated_run sampleBoot (fun _ => 0) sampleSession
      m₀ m sampleBoot_clean hInit sampleSession_within
      (sampleSession_exclusive hInit) hExec⟩

/- A create whose private region lies beyond the address registers, at the alias of a second one. -/
def aliasCreate (epm utm : Word) : Arrival :=
  { createTrap with
    env :=
      { sampleEnv with
        createArgs := some
          { epmRegion := ⟨epm, 0x100000⟩
            utmRegion := ⟨utm, 0x1000⟩
            runtimePaddr := epm
            userPaddr := epm
            freePaddr := epm
            freeRequested := 0 } } }

/- Enclave 0 lies 2^56 above enclave 1; hart 1 runs it. -/
def aliasSession : List Arrival :=
  [aliasCreate 0x100000090000000 0xa0000000, aliasCreate 0x90000000 0xa0001000,
    sampleTrap 1 (.ecall sbiSmRunEnclave) 0]

/- Harts with a naturally aligned entry left in byte 1 of `pmpcfg0`. -/
def staleBoot : Nat → Hart := fun h =>
  { sampleBoot h with pmp := Function.update (fun _ => ⟨0, 0⟩) 1 ⟨0, 0x18⟩ }

theorem allows_second_entry {a : Nat} (hFirst : matchesEntry c 0 a = false)
    (hSecond : matchesEntry c 1 a = true) (access : Access) :
    allows 8 c access a = (c 1).cfg.getLsbD access.bit := by
  apply allows_of_firstMatch
  rw [firstMatch_eq_some_iff]
  refine ⟨by decide, hSecond, ?_⟩
  intro j hj
  have hZero : j = 0 := by omega
  rw [hZero]
  exact hFirst

theorem sm_entry_elsewhere {a : Nat} (hInv : RegionInv .generic m)
    (hProg : Programmed (Owner.region m .sm) pmpNoPerm c) (ha : a < 2 ^ 56)
    (hOutside : a < 0x80000000 ∨ 0x80200000 ≤ a) : matchesEntry c 0 a = false := by
  have hDesc := hInv.desc .sm trivial
  have hReach : WithinReach (Owner.region m .sm) := by
    left
    rw [hDesc.1, hDesc.2.1]
    exact Platform.generic.smm_reach
  have hIff := hProg.matches_iff monitorPerm_no (hInv.wellFormed (o := .sm) trivial) hReach
    (hInv.placed (o := .sm) trivial) ha
  rw [hDesc.2.2.2.2] at hIff
  cases hMatch : matchesEntry c 0 a with
  | false => rfl
  | true =>
    have hCovers := hIff.mp hMatch
    unfold PmpRegion.Covers at hCovers
    rw [hDesc.1, hDesc.2.1] at hCovers
    have hBase : Platform.generic.smmBase.toNat = 0x80000000 := by
      decide
    have hSize : Platform.generic.smmSize.toNat = 0x200000 := by
      decide
    omega

theorem alias_not_isolated (hInit : sampleInit = some m₀)
    (hExcl : Always sampleStep
      (ExclusiveRegisters .generic) m₀ aliasSession)
    (hRun : exec sampleStep m₀ aliasSession = some m) :
    ¬ Isolated .generic m := by
  have hFacts : (sampleRun aliasSession).map (fun m =>
            (m.cpus 1, (m.enclaves 0).state, Owner.region m (.epm 0), Owner.region m (.utm 0))) =
        some (⟨true, 0⟩, .running, ⟨0x100000, pmpANapot, 0x100000090000000, false, 1⟩,
          ⟨0x1000, pmpANapot, 0xa0000000, false, 7⟩) := by
    decide +kernel
  rw [sampleRun_from hInit, hRun] at hFacts
  simp only [Option.map_some, Option.some.injEq, Prod.mk.injEq] at hFacts
  rcases hFacts with ⟨hCpu, hState, hEpm, hUtm⟩
  rcases viewInv_run sampleBoot_clean hInit hExcl hRun with ⟨hViews, _⟩
  have hShows := hViews.views 1
  rw [hCpu] at hShows
  have hLive : Owner.Live m (.epm 0) := by
    simp [Owner.Live, hState]
  -- the entry of enclave 0 holds the alias
  have hEntry := hShows.programmed (.epm 0) pmpAllPerm hLive (by simp [ofCpu, View.enclave]) 1
    (by rw [hEpm]; decide)
  rw [hEpm] at hEntry
  have hFirst := sm_entry_elsewhere hViews.life.regions
    (hShows.programmed .sm pmpNoPerm trivial rfl) (a := 0x90000000) (by decide) (by decide)
  have hSecond : matchesEntry (m.harts 1).pmp 1 0x90000000 = true := by
    rw [matchesEntry_of_napot (by rw [hEntry]; decide), hEntry]
    decide
  intro hIsolated
  have hIff := (hIsolated 1 .read 0x90000000 (by decide)).2 0 hCpu
  have hAllowed : allows 8 (m.harts 1).pmp .read 0x90000000 = true := by
    rw [allows_second_entry hFirst hSecond, hEntry]
    decide
  have hCovers := hIff.mp hAllowed
  rw [hEpm, hUtm] at hCovers
  exact absurd hCovers (by decide)

/- The stale entry denies the host the first eight bytes. -/
theorem stale_not_isolated (hInit : smInit .generic staleBoot (fun _ => 0) = some m) :
    ¬ Isolated .generic m := by
  have hInv := regionInv_smInit hInit
  rcases smInit_cases hInit with ⟨_, _, _, hSlots, hCpus, _⟩
  have hUnlocked : Unlocked .generic (staleBoot 0).pmp := by
    intro i hi
    have hCases : i = 1 ∨ i ≠ 1 := by omega
    rcases hCases with hEq | hNe
    · rw [hEq]
      decide
    · simp [staleBoot, hNe, PmpEntry.locked]
  have hKept := (pmpInit_keeps rfl hUnlocked).2
  -- the monitor's entry is 0, the host's 7, and 1 is stale
  have hBank : ∀ n ≠ 7, (m.harts 0).pmp n = if usesReg (Owner.region m .sm) n then
      entryFor (Owner.region m .sm) pmpNoPerm n
      else pmpInit .generic (staleBoot 0).pmp n := by
    intro n hn
    have hNot : ¬ usesReg (Owner.region m .os) n = true :=
      fun hUses => hn ((hInv.uses_os n).mp hUses)
    rw [smInit_bank hInit hUnlocked, if_neg hNot]
  have hProg : Programmed (Owner.region m .sm) pmpNoPerm (m.harts 0).pmp := by
    intro n hUses
    have hZero := (hInv.uses_sm n).mp hUses
    rw [hBank n (by omega), if_pos hUses]
  have hEntry : (m.harts 0).pmp 1 = ⟨0#54, 0x18#8⟩ := by
    rw [hBank 1 (by decide), if_neg, hKept 1 (by decide) (by decide)]
    · rfl
    · intro hUses
      exact absurd ((hInv.uses_sm 1).mp hUses) (by decide)
  have hFirst := sm_entry_elsewhere hInv hProg (a := 0) (by decide) (by decide)
  have hSecond : matchesEntry (m.harts 0).pmp 1 0 = true := by
    rw [matchesEntry_of_napot (by rw [hEntry]; decide), hEntry]
    decide
  have hDenied : allows 8 (m.harts 0).pmp .read 0 = false := by
    rw [allows_second_entry hFirst hSecond, hEntry]
    decide
  intro hIsolated
  have hIff := (hIsolated 0 .read 0 (by decide)).1 (by rw [hCpus])
  have hAllowed := hIff.mpr ⟨?_, fun eid hUsed => absurd (by rw [hSlots]; rfl) hUsed⟩
  · cases hDenied.symm.trans hAllowed
  · have hDesc := hInv.desc .sm trivial
    unfold PmpRegion.Covers
    rw [hDesc.1, hDesc.2.1]
    decide

/- Two ways in which isolation fails: a private region that the registers cannot express, and an
   entry that survives initialization. In the first one the registers are clean at boot and
   exclusive all along. -/
theorem isolated_fails_on_alias_and_stale_entry : (∃ m₀ m,
      sampleInit = some m₀ ∧
      (∀ h, CleanBoot .generic (sampleBoot h).pmp) ∧
      Always sampleStep
      (ExclusiveRegisters .generic) m₀ aliasSession ∧
      exec sampleStep m₀ aliasSession = some m ∧
      ¬ Isolated .generic m) ∧
    ∃ m, smInit .generic staleBoot (fun _ => 0) = some m ∧ ¬ Isolated .generic m := by
  have hRun : (sampleRun aliasSession).isSome = true := by
    decide +kernel
  have hStale : (smInit .generic staleBoot (fun _ => 0)).isSome = true := by
    decide +kernel
  rcases Option.isSome_iff_exists.mp hRun with ⟨m, hSome⟩
  rcases Option.bind_eq_some_iff.mp hSome with ⟨m₀, hInit, hExec⟩
  rcases Option.isSome_iff_exists.mp hStale with ⟨m', hInit'⟩
  have hExcl : Always sampleStep
      (ExclusiveRegisters .generic) m₀ aliasSession := by
    apply exclusive_without_destroy hInit
    intro a ha
    simp only [aliasSession, List.mem_cons, List.not_mem_nil, or_false] at ha
    rcases ha with hEq | hEq | hEq
    · subst hEq
      decide
    · subst hEq
      decide
    · subst hEq
      decide
  exact ⟨⟨m₀, m, hInit, sampleBoot_clean, hExcl, hExec, alias_not_isolated hInit hExcl hExec⟩,
    m', hInit', stale_not_isolated hInit'⟩

end Keystone
