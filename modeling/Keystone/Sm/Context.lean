import Keystone.Sm.ExitFinality

/-
  Context switches are transparent to both sides.

  While an enclave runs, its slot holds the context of the host that entered it; while it is
  stopped, the slot holds its own context. No other call touches the slot, so what a switch
  exchanged is what the next switch gives back.
-/

----
-- Saved Contexts
----

namespace Keystone

open Function (update update_of_ne update_self)
open Riscv
open Machine (arrive claim setEnclave setHart setMem unclaim)

variable {a b : Arrival} {out : Outcome} {h eid : Nat} {m₃ m₄ : Machine} {regs : TrapRegs}

/- What an exchange leaves in the slot. -/
def savedContext (regs : TrapRegs) (csrs : Csrs) (returnOnResume : Bool) : ThreadState where
  prevMepc := regs.mepc
  prevMstatus := regs.mstatus
  prevCsrs := csrs
  prevState := update regs.x regZero (if returnOnResume then 0 else 1)

variable {P : Platform} {K : Crypto} {keys : Keys} {m m' : Machine}

theorem entered_thread (m : Machine) (h eid : Nat) (regs : TrapRegs) (load : Bool) (c : PmpBank) :
    (((m.claim eid).entered h eid regs load c).enclaves eid).thread =
    savedContext regs (m.harts h).csrs true := by
  rw [entered_slot, if_pos rfl]
  simp only [swapContext_eq]
  rfl

theorem left_thread (m : Machine) (h eid : Nat) (regs : TrapRegs) (returnOnResume : Bool)
    (c : PmpBank) : (((m.unclaim eid).left h eid regs returnOnResume c).enclaves eid).thread =
    savedContext regs (m.harts h).csrs
    returnOnResume := by
  rw [left_slot, if_pos rfl]
  simp only [swapContext_eq]
  rfl

theorem arrive_csrs (m : Machine) (a : Arrival) : ((m.arrive a).harts a.hart).csrs = a.csrs := by
  simp [arrive, setHart, setMem]

/- As long as the hart stays in the enclave, its slot is not touched. -/
theorem running_kept (hInv : LifeInv P m) (hEffect : Effect P K m a out m')
    (hCpu : m.cpus h = ⟨true, eid⟩) (hStay : (m'.cpus h).isEnclave = true) :
    m'.cpus h = ⟨true, eid⟩ ∧ (m'.enclaves eid).thread = (m.enclaves eid).thread := by
  rcases hInv.stages with ⟨s, hRep⟩
  have hStage := (hRep.home eid h).mpr hCpu
  have hState : (m.enclaves eid).state = .running := by
    rw [hRep.state, hStage]
    rfl
  cases hEffect with
  | quiet mem _ _ => exact ⟨hCpu, rfl⟩
  | created args e region shared t t' _ _ _ hAcc =>
    have hNe := slot_ne_of_state hState hAcc.slot_free (by decide)
    rw [created_slot_ne hNe]
    exact ⟨hCpu, rfl⟩
  | destroyed e _ _ _ hOk =>
    have hNe : eid ≠ e := by
      intro hEq
      rw [← hEq] at hOk
      rcases hRep.destroyable hOk with hIdle | hIdle
      · rw [hStage] at hIdle
        cases hIdle
      · rw [hStage] at hIdle
        cases hIdle
    rw [destroyed_slot_ne hNe]
    exact ⟨hCpu, rfl⟩
  | entered e load c hHost _ _ hOk _ =>
    have hHart : h ≠ a.hart := by
      intro hEq
      rw [← hEq, hCpu] at hHost
      cases hHost
    have hNe : eid ≠ e := by
      intro hEq
      rw [← hEq] at hOk
      have hReady := hRep.enterable hOk
      rw [hStage] at hReady
      cases load with
      | true | false => cases hReady
    rw [entered_slot, if_neg hNe]
    exact ⟨(update_of_ne hHart _ _).trans hCpu, rfl⟩
  | left kind regs c hIn _ hOk _ =>
    have hHart : h ≠ a.hart := by
      intro hEq
      rw [hEq] at hStay
      simp [Machine.left] at hStay
    have hNe : eid ≠ (m.cpus a.hart).eid := by
      intro hEq
      have hOther := hRep.resident (hRep.inEnclave hIn)
      rw [← hEq, hStage] at hOther
      cases hOther
      exact hHart rfl
    rw [left_slot, if_neg hNe]
    exact ⟨(update_of_ne hHart _ _).trans hCpu, rfl⟩

theorem stopped_kept (hEffect : Effect P K m a out m')
    (hStopped : (m.enclaves eid).state = .stopped) (hStay : (m'.enclaves eid).state = .stopped) :
    (m'.enclaves eid).thread = (m.enclaves eid).thread := by
  cases hEffect with
  | quiet mem _ _ => rfl
  | created args e region shared t t' _ _ _ hAcc =>
    have hNe := slot_ne_of_state hStopped hAcc.slot_free (by decide)
    rw [created_slot_ne hNe]
    rfl
  | destroyed e _ _ _ _ =>
    have hNe : eid ≠ e := by
      intro hEq
      rw [hEq, destroyed_state_self] at hStay
      cases hStay
    rw [destroyed_slot_ne hNe]
    rfl
  | entered e load c _ _ _ _ _ =>
    have hNe : eid ≠ e := by
      intro hEq
      rw [entered_slot, if_pos hEq] at hStay
      cases hStay
    rw [entered_slot, if_neg hNe]
    rfl
  | left kind regs c _ _ hOk _ =>
    have hNe := slot_ne_of_state hStopped hOk (by decide)
    rw [left_slot, if_neg hNe]
    rfl

----
-- Slots Over Runs
----

variable {m₀ : Machine} {as mid : List Arrival}

/- What every effect keeps between two states satisfying `good` is kept by a run that stays in
   `good`. -/
theorem kept_run {good : Machine → Prop} (kept : Machine → Prop)
    (hKeeps : ∀ t a out t', LifeInv P t → kept t → good t → good t' → Effect P K t a out t' →
      kept t')
    (hInv : LifeInv P m) (hStart : kept m) (hStay : Runs.Always (smStep P K keys) good m mid)
    (hRun : Runs.exec (smStep P K keys) m mid = some m') : kept m' := by
  have hStep : ∀ t a t', LifeInv P t ∧ kept t →
      (good t ∧ ∀ u, smStep P K keys t a = some u → good u) →
      smStep P K keys t a = some t' → LifeInv P t' ∧ kept t' := by
    intro t a t' hs hOk hStep
    rcases smStep_effect hs.1.regions hStep with ⟨out, _, hEffect⟩
    exact ⟨lifeInv_effect hs.1 hEffect, hKeeps t _ out t' hs.1 hs.2 hOk.1 (hOk.2 t' hStep) hEffect⟩
  exact (Runs.exec_invariant_of_guarded hStep ⟨hInv, hStart⟩ hStay.guarded hRun).2

theorem running_run (hInv : LifeInv P m) (hCpu : m.cpus h = ⟨true, eid⟩)
    (hStay : Runs.Always (smStep P K keys) (fun m => (m.cpus h).isEnclave = true) m mid)
    (hRun : Runs.exec (smStep P K keys) m mid = some m') :
    m'.cpus h = ⟨true, eid⟩ ∧ (m'.enclaves eid).thread = (m.enclaves eid).thread := by
  refine kept_run (fun t => t.cpus h = ⟨true, eid⟩ ∧ (t.enclaves eid).thread = _) ?_ hInv
    ⟨hCpu, rfl⟩ hStay hRun
  intro t a out t' hLife hs _ hStays hEffect
  have hKept := running_kept hLife hEffect hs.1 hStays
  exact ⟨hKept.1, hKept.2.trans hs.2⟩

theorem stopped_slot_run (hInv : LifeInv P m)
    (hStay : Runs.Always (smStep P K keys) (fun m => (m.enclaves eid).state = .stopped) m mid)
    (hRun : Runs.exec (smStep P K keys) m mid = some m') :
    (m'.enclaves eid).thread = (m.enclaves eid).thread := by
  refine kept_run (fun t => (t.enclaves eid).thread = _) ?_ hInv rfl hStay hRun
  intro t a out t' _ hs hStopped hStays hEffect
  exact (stopped_kept hEffect hStopped hStays).trans hs

/- The event `b` returns hart `h` to the host. -/
structure HostReturns (P : Platform) (K : Crypto) (keys : Keys) (m : Machine) (b : Arrival)
    (h : Nat) (regs : TrapRegs) (m' : Machine) : Prop where
  hart : b.hart = h
  inside : (m.cpus h).isEnclave = true
  ret : ∃ ret, takeTrap P K keys m b = some (.trapExit ret regs, m')
  outside : (m'.cpus h).isEnclave = false

/- A session of an enclave on a hart: event `a` enters it, the hart stays inside during `mid`, and
   `b` returns to the host. -/
structure Session (P : Platform) (K : Crypto) (keys : Keys) (m₀ : Machine) (as : List Arrival)
    (eid : Nat) (a : Arrival) (mid : List Arrival) (m₃ : Machine) (b : Arrival) (regs : TrapRegs)
    (m₄ : Machine) : Prop where
  span : ∃ m₁ m₂, Runs.Spans (smStep P K keys) m₀ as m₁ a m₂ mid m₃ b ∧
      EnterSucceeds (takeTrap P K keys) m₁ a eid ∧
      Runs.Always (smStep P K keys) (fun m => (m.cpus a.hart).isEnclave = true) m₂ mid
  returns : HostReturns P K keys m₃ b a.hart regs m₄

theorem enter_effect (hInv : LifeInv P m) (hEnter : EnterSucceeds (takeTrap P K keys) m a eid)
    (hStep : smStep P K keys m a = some m') :
    m'.cpus a.hart = ⟨true, eid⟩ ∧ (m'.enclaves eid).thread = savedContext a.regs a.csrs true := by
  rcases hEnter.ret with ⟨regs, m₁, hTake⟩
  have hSame := smStep_takeTrap hStep hTake
  subst hSame
  rcases takeTrap_enter hInv hEnter.call hEnter.eid hTake with ⟨load, c, _, _, _, _, hNew⟩
  rw [hNew, entered_thread, arrive_csrs]
  exact ⟨update_self _ _ _, rfl⟩

/- At the end of a session the slot holds the context that the host entered with. -/
theorem Session.slot (hInv : LifeInv P m₀)
    (hSession : Session P K keys m₀ as eid a mid m₃ b regs m₄) : LifeInv P m₃ ∧
    m₃.cpus a.hart = ⟨true, eid⟩ ∧ (m₃.enclaves eid).thread = savedContext a.regs a.csrs true := by
  rcases hSession.span with ⟨m₁, m₂, hSpan, hEnter, hStay⟩
  rcases hSpan.reach with ⟨pre, hPre⟩
  have hInv₁ := lifeInv_run hInv hPre
  have hInv₂ := lifeInv_step hInv₁ hSpan.first
  rcases enter_effect hInv₁ hEnter hSpan.first with ⟨hCpu, hThread⟩
  rcases running_run hInv₂ hCpu hStay hSpan.between with ⟨hCpu', hThread'⟩
  exact ⟨lifeInv_run hInv₂ hSpan.between, hCpu', hThread'.trans hThread⟩

/- The frame and the registers that a returned host finds, in terms of the slot. -/
theorem HostReturns.frame (hInv : LifeInv P m) (hReturns : HostReturns P K keys m b h regs m') :
    ∃ kind left, leaveRequest b = some (kind, left) ∧
    let thread := (m.enclaves (m.cpus h).eid).thread
    regs = kind.finish
            { x := thread.prevState
              mepc := thread.prevMepc
              mstatus :=
                (left.mstatus &&& ~~~mstatusMask) |||
                  thread.prevMstatus } ∧
        (m'.harts h).csrs = thread.prevCsrs ∧
        (m'.harts h).f = b.f ∧
        (m'.harts h).fcsr = b.fcsr := by
  rcases hReturns.ret with ⟨ret, hTake⟩
  have hHart := hReturns.hart
  subst hHart
  have hIn := hReturns.inside
  have hOutside := hReturns.outside
  have hEffect := takeTrap_effect hInv.regions hTake
  generalize hOut : Outcome.trapExit ret regs = out at hEffect
  cases hEffect with
  | quiet _ mem _ _ => cases hIn.symm.trans hOutside
  | created | destroyed => cases hOut
  | entered e load c hHost _ _ _ _ => cases hIn.symm.trans hHost
  | left kind left c _ hRequest _ _ =>
    cases hOut
    refine ⟨kind, left, hRequest, ?_, ?_, ?_, ?_⟩
    · simp only [leftRegs, swapContext_eq]
      simp [unclaim, setEnclave, arrive, setHart, setMem]
    all_goals simp [Machine.left, unclaim, setEnclave, arrive, setHart, setMem]

----
-- Transparency
----

/- Everything but `sip`, which also shows the interrupts that became pending meanwhile. -/
def Csrs.withoutSip (c : Csrs) : Csrs := { c with sip := 0 }

/- The host that entered with `a` gets its registers back from `b`. -/
structure HostRestored (a b : Arrival) (regs : TrapRegs) (csrs : Csrs) : Prop where
  x : ∀ i ≠ 0, i ≠ regA0 → (b.trap.isExit = true → i ≠ regA1) → regs.x i = a.regs.x i
  csrs : csrs.withoutSip = a.csrs.withoutSip
  mstatus : regs.mstatus &&& mstatusMask = a.regs.mstatus &&& mstatusMask
  mepc : regs.mepc = a.regs.mepc + 4#64

/- Every session gives the host its registers back. -/
def HostTransparent (P : Platform) (K : Crypto) (keys : Keys) (m₀ : Machine)
    (as : List Arrival) : Prop :=
  ∀ eid a mid m₃ b regs m₄, Session P K keys m₀ as eid a mid m₃ b regs m₄ →
      HostRestored a b regs (m₄.harts a.hart).csrs

/- An absence of an enclave: event `a` stops it, it stays stopped during `mid`, and `b` resumes it,
   on any hart. -/
structure Absence (P : Platform) (K : Crypto) (keys : Keys) (m₀ : Machine) (as : List Arrival)
    (eid : Nat) (a : Arrival) (mid : List Arrival) (b : Arrival) (regs : TrapRegs)
    (m₄ : Machine) : Prop where
  span : ∃ m₁ m₂ m₃, Runs.Spans (smStep P K keys) m₀ as m₁ a m₂ mid m₃ b ∧
      m₁.cpus a.hart = ⟨true, eid⟩ ∧
      Runs.Always (smStep P K keys) (fun m => (m.enclaves eid).state = .stopped) m₂ mid ∧
      takeTrap P K keys m₃ b = some (.trapExit .success regs, m₄)
  call : b.trap = .ecall sbiSmResumeEnclave
  eid : toEid (b.regs.x regA0) = eid

/- The enclave is resumed with what it was interrupted with. -/
structure InterruptRestored (a : Arrival) (regs : TrapRegs) (csrs : Csrs) : Prop where
  x : ∀ i ≠ 0, regs.x i = a.regs.x i
  csrs : csrs = a.csrs
  mstatus : regs.mstatus &&& mstatusMask = a.regs.mstatus &&& mstatusMask
  mepc : regs.mepc = a.regs.mepc

/- The enclave returns from its edge call. -/
structure EdgeCallRestored (a : Arrival) (regs : TrapRegs) (csrs : Csrs) : Prop where
  x : ∀ i ≠ 0, i ≠ regA0 → regs.x i = a.regs.x i
  a0 : regs.x regA0 = 0#64
  csrs : csrs = a.csrs
  mstatus : regs.mstatus &&& mstatusMask = a.regs.mstatus &&& mstatusMask
  mepc : regs.mepc = a.regs.mepc + 4#64

/- Every absence gives the enclave its registers back. -/
def EnclaveTransparent (P : Platform) (K : Crypto) (keys : Keys) (m₀ : Machine)
    (as : List Arrival) : Prop :=
  ∀ eid a mid b regs m₄, Absence P K keys m₀ as eid a mid b regs m₄ → (a.trap = .interrupt →
        InterruptRestored a regs (m₄.harts b.hart).csrs) ∧
      (a.trap = .ecall sbiSmStopEnclave → a.regs.x regA0 = stopEdgeCallHost →
          EdgeCallRestored a regs (m₄.harts b.hart).csrs)

theorem leaveRequest_exit {retval : Word} {left : TrapRegs}
    (hRequest : leaveRequest b = some (.exit retval, left)) : b.trap.isExit = true := by
  unfold leaveRequest at hRequest
  split at hRequest
  · split at hRequest
    · cases hRequest
    · split at hRequest
      · rename_i hTrap _ hExit
        rw [hTrap, hExit]
        decide
      · cases hRequest
  · cases hRequest
  · rename_i hTrap
    rw [hTrap]
    rfl

theorem host_context (hInv : LifeInv P m₀)
    (hSession : Session P K keys m₀ as eid a mid m₃ b regs m₄) :
    HostRestored a b regs (m₄.harts a.hart).csrs := by
  rcases hSession.slot hInv with ⟨hInv₃, hCpu, hThread⟩
  rcases hSession.returns.frame hInv₃ with ⟨kind, left, hRequest, hRegs, hCsrs, _, _⟩
  rw [hCpu] at hRegs hCsrs
  simp only [hThread, savedContext] at hRegs hCsrs
  have hCsrs' : (m₄.harts a.hart).csrs.withoutSip =
      a.csrs.withoutSip := by
    rw [hCsrs]
  cases kind with
  | exit retval =>
    have hExit := leaveRequest_exit hRequest
    refine ⟨?_, hCsrs', ?_, ?_⟩
    · intro i hZero hA0 hA1
      rw [hRegs]
      simp [LeaveKind.finish, TrapRegs.finish, TrapRegs.setX, hZero, hA0, hA1 hExit]
    · rw [hRegs]
      exact masked_restore _ _ _
    · rw [hRegs]
      rfl
  | stop request =>
    refine ⟨?_, hCsrs', ?_, ?_⟩
    · intro i hZero hA0 _
      rw [hRegs]
      simp [LeaveKind.finish, TrapRegs.finish, TrapRegs.setX, hZero, hA0]
    · rw [hRegs]
      exact masked_restore _ _ _
    · rw [hRegs]
      rfl

theorem leave_effect (hInv : LifeInv P m) (hCpu : m.cpus a.hart = ⟨true, eid⟩)
    (hStep : smStep P K keys m a = some m') (hStopped : (m'.enclaves eid).state = .stopped) :
    ∃ kind left, leaveRequest a = some (kind, left) ∧ (m'.enclaves eid).thread =
    savedContext left a.csrs kind.returnOnResume := by
  rcases smStep_effect hInv.regions hStep with ⟨out, _, hEffect⟩
  rcases hInv.stages with ⟨s, hRep⟩
  have hStage := (hRep.home eid a.hart).mpr hCpu
  have hState : (m.enclaves eid).state = .running := by
    rw [hRep.state, hStage]
    rfl
  cases hEffect with
  | quiet mem _ _ => cases hState.symm.trans hStopped
  | created _ _ _ _ _ _ hHost _ _ _ | destroyed _ hHost _ _ _ | entered _ _ _ hHost _ _ _ _ =>
    rw [hCpu] at hHost
    cases hHost
  | left kind left c _ hRequest _ _ =>
    refine ⟨kind, left, hRequest, ?_⟩
    rw [hCpu, left_thread, arrive_csrs]

section

variable (hInv : LifeInv P m₀) (hAbsence : Absence P K keys m₀ as eid a mid b regs m₄)
include hInv hAbsence

theorem Absence.frame :
    ∃ kind left, leaveRequest a = some (kind, left) ∧
    let thread := savedContext left a.csrs kind.returnOnResume
    regs = enterFinish false
            { x := thread.prevState
              mepc := thread.prevMepc
              mstatus :=
                (b.regs.mstatus &&& ~~~mstatusMask) |||
                  thread.prevMstatus } ∧
        (m₄.harts b.hart).csrs = thread.prevCsrs := by
  rcases hAbsence.span with ⟨m₁, m₂, m₃, hSpan, hCpu, hStay, hTake⟩
  rcases hSpan.reach with ⟨pre, hPre⟩
  have hInv₁ := lifeInv_run hInv hPre
  have hInv₂ := lifeInv_step hInv₁ hSpan.first
  rcases leave_effect hInv₁ hCpu hSpan.first hStay.head with ⟨kind, left, hRequest, hSaved⟩
  have hKept := stopped_slot_run hInv₂ hStay hSpan.between
  have hThread := hKept.trans hSaved
  rcases takeTrap_enter (lifeInv_run hInv₂ hSpan.between)
      (.inr hAbsence.call) hAbsence.eid hTake with
    ⟨load, c, _, hTrap, _, hRegs, hNew⟩
  have hLoad : load = false := by
    cases load with
    | false => rfl
    | true =>
      rw [hAbsence.call] at hTrap
      cases hTrap
  subst hLoad
  refine ⟨kind, left, hRequest, ?_, ?_⟩
  · rw [hRegs]
    simp only [enteredRegs, swapContext_eq]
    simp [claim, setEnclave, arrive, setHart, setMem,
      hThread]
  · rw [hNew]
    simp [Machine.entered, enteredCsrs, claim,
      setEnclave, arrive, setHart,
      setMem, hThread]

theorem interrupt_context (hTrap : a.trap = .interrupt) :
    InterruptRestored a regs (m₄.harts b.hart).csrs := by
  rcases hAbsence.frame hInv with ⟨kind, left, hRequest, hRegs, hCsrs⟩
  unfold leaveRequest at hRequest
  rw [hTrap] at hRequest
  cases hRequest
  -- the zero entry tells the resume to keep `a0`
  have hKeep : (LeaveKind.stop stopTimerInterrupt).returnOnResume =
      false := by
    decide
  refine ⟨?_, hCsrs, ?_, ?_⟩
  · intro i hZero
    rw [hRegs]
    exact update_of_ne hZero _ _
  · rw [hRegs]
    exact masked_restore _ _ _
  · rw [hRegs]
    exact BitVec.sub_add_cancel _ _

theorem edgeCall_context
    (hTrap : a.trap = .ecall sbiSmStopEnclave) (hRequestCall : a.regs.x regA0 = stopEdgeCallHost) :
    EdgeCallRestored a regs (m₄.harts b.hart).csrs := by
  rcases hAbsence.frame hInv with ⟨kind, left, hRequest, hRegs, hCsrs⟩
  unfold leaveRequest at hRequest
  rw [hTrap] at hRequest
  rw [hRequestCall] at hRequest
  cases hRequest
  have hReturn : (LeaveKind.stop stopEdgeCallHost).returnOnResume =
      true := by
    decide
  simp only [enterFinish, savedContext, update_self, Bool.false_eq_true, if_false,
    TrapRegs.setX] at hRegs
  rw [if_pos (by decide)] at hRegs
  refine ⟨?_, ?_, hCsrs, ?_, ?_⟩
  · intro i hZero hA0
    rw [hRegs]
    exact (update_of_ne hA0 _ _).trans (update_of_ne hZero _ _)
  · rw [hRegs]
    simp only [update_self]
    decide
  · rw [hRegs]
    exact masked_restore _ _ _
  · rw [hRegs]

end

/- Context switches give both sides their registers back. -/
theorem contextSwitch_transparent (boot : Nat → Hart) (mem : Memory) (as : List Arrival)
    (m₀ : Machine) (hInit : smInit P boot mem = some m₀) :
    HostTransparent P K keys m₀ as ∧ EnclaveTransparent P K keys m₀ as := by
  have hInv := lifeInv_smInit hInit
  constructor
  · intro eid a mid m₃ b regs m₄ hSession
    exact host_context hInv hSession
  · intro eid a mid b regs m₄ hAbsence
    exact ⟨interrupt_context hInv hAbsence, edgeCall_context hInv hAbsence⟩

/- An interrupt on hart 1, a resume on hart 0 and an exit there. -/
def sampleInterrupt : Arrival := sampleTrap 1 .interrupt 0

def sampleAbsence : List Arrival :=
  sampleSession ++ [sampleInterrupt, sampleResume, sampleTrap 0 (.ecall sbiSmExitEnclave) 7]

/- The sample run holds an absence of enclave 0. -/
theorem contextSwitch_transparent_sampleAbsence : ∃ m₀ regs m₄,
    sampleInit = some m₀ ∧
    Absence .generic sampleCrypto sampleKeys m₀ sampleAbsence 0 sampleInterrupt [] sampleResume
    regs m₄ ∧
    HostTransparent .generic sampleCrypto sampleKeys m₀ sampleAbsence ∧
    EnclaveTransparent .generic sampleCrypto sampleKeys m₀ sampleAbsence := by
  have hSome : (sampleRun sampleAbsence).isSome = true := by
    decide +kernel
  have hCpu : (sampleRun sampleSession).map (fun m => m.cpus 1) = some ⟨true, 0⟩ := by
    decide +kernel
  have hState : (sampleRun (sampleSession ++ [sampleInterrupt])).map
          (fun m => (m.enclaves 0).state) =
        some .stopped := by
    decide +kernel
  have hRet : ((sampleRun (sampleSession ++ [sampleInterrupt])).bind fun m =>
            (takeTrap .generic sampleCrypto sampleKeys m sampleResume).map fun r => r.1.ret) =
        some (some .success) := by
    decide +kernel
  rcases Option.isSome_iff_exists.mp hSome with ⟨m, hRun⟩
  rcases Option.bind_eq_some_iff.mp hRun with ⟨m₀, hInit, hExec⟩
  rcases (Runs.exec_split_iff _).mp hExec with ⟨m₁, m₂, hPre, hStep, _⟩
  have hPre' : Runs.exec sampleStep
      m₀ (sampleSession ++ [sampleInterrupt]) = some m₂ :=
    (Runs.exec_split_iff _).mpr ⟨m₁, m₂, hPre, hStep, rfl⟩
  rw [sampleRun_from hInit, hPre] at hCpu
  rw [sampleRun_from hInit, hPre'] at hState hRet
  rcases sampleStep_ret hRet with ⟨regs, m₄, hTake⟩
  refine ⟨m₀, regs, m₄, hInit, ?_, contextSwitch_transparent sampleBoot (fun _ => 0) _ m₀ hInit⟩
  refine ⟨⟨m₁, m₂, m₂, ⟨⟨sampleSession, _, rfl, hPre⟩, hStep, rfl⟩,
    Option.some.inj hCpu, ?_, hTake⟩, rfl, by decide⟩
  exact Runs.always_nil (Option.some.inj hState)

end Keystone
