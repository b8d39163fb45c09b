import Keystone.Sm.Isolation

/-
  What a call of `create_enclave` leaves behind.

  A create that fails leaves the whole machine as it was. A create that succeeds leaves a slot with
  a clean context, which nothing touches before the first run. So the state in which an enclave
  starts is a function of its creation parameters.
-/

----
-- A Create That Fails
----

namespace Keystone

variable {P : Platform} {K : Crypto} {keys : Keys}

/- In every state between calls, a create that returns an error has no effect: the machine with its
   region table, its PMP registers, its memory and its slots is the one that the call found. -/
theorem create_atomic (boot : Nat → Hart) (mem : Memory) (as : List Arrival) (m₀ m : Machine)
    (hInit : smInit P boot mem = some m₀) (hRun : Runs.exec (smStep P K keys) m₀ as = some m)
    (a : Arrival) (args : CreateArgs) (r : CreateRet)
    (hCreate : createEnclave P K (m.arrive a) a.hart args = some r) (hFailed : r.ret ≠ .success) :
    r.machine = m.arrive a := by
  have hInv := regionInv_run hInit hRun
  rcases createEnclave_cases (hInv.arrive a).table hCreate
    with ⟨_, _, hSame⟩ | ⟨_, _, _, _, _, _, hDone⟩
  · exact hSame
  · rw [hDone] at hFailed
    exact absurd rfl hFailed

/- A second enclave on the memory of the first one. -/
theorem create_atomic_overlap : ∃ m₀ m r, sampleInit = some m₀ ∧
    Runs.exec sampleStep m₀ sampleSession = some m ∧
    createEnclave .generic sampleCrypto (m.arrive (sampleTrap 0 .interrupt 0)) 0
    sampleArgs = some r ∧
    r.ret = .pmpFailure ∧
    r.machine = m.arrive (sampleTrap 0 .interrupt 0) := by
  have hRet : ((sampleRun sampleSession).bind fun m =>
          createEnclave .generic sampleCrypto (m.arrive (sampleTrap 0 .interrupt 0)) 0
            sampleArgs).map CreateRet.ret =
        some .pmpFailure := by
    decide +kernel
  rcases Option.map_eq_some_iff.mp hRet with ⟨r, hCall, hFailure⟩
  rcases Option.bind_eq_some_iff.mp hCall with ⟨m, hRun, hCreate⟩
  rcases Option.bind_eq_some_iff.mp hRun with ⟨m₀, hInit, hExec⟩
  have hFailed : r.ret ≠ .success := by
    rw [hFailure]
    decide
  exact ⟨m₀, m, r, hInit, hExec, hCreate, hFailure,
    create_atomic sampleBoot (fun _ => 0) sampleSession m₀ m
      hInit hExec (sampleTrap 0 .interrupt 0) sampleArgs r
      hCreate hFailed⟩

----
-- Slots Before Their First Run
----

variable (as : List Arrival) (thread : ThreadState)

/- Nothing of a host or of an earlier enclave. -/
structure CleanThread : Prop where
  state : ∀ i ≠ 0, thread.prevState i = 0#64
  csrs : thread.prevCsrs = { Csrs.zero with scounteren := thread.prevCsrs.scounteren }

/- One of the traps asked for an enclave with them. -/
def FilledBy (params : RuntimeParams) : Prop :=
  ∃ c ∈ as, c.trap = .ecall sbiSmCreateEnclave ∧ ∃ args, c.env.createArgs = some args ∧
      args.params = params

/- What slot `eid` keeps from the create that filled it: the parameters, the private region they
   name and, until the first run, a clean context. -/
structure SlotOrigin (m : Machine) (eid : Nat) : Prop where
  filled : FilledBy as (m.enclaves eid).params
  epm : (Owner.region m (.epm eid)).addr = (m.enclaves eid).params.dramBase ∧
      (Owner.region m (.epm eid)).size = (m.enclaves eid).params.dramSize
  clean : (m.enclaves eid).state = .fresh → CleanThread (m.enclaves eid).thread

def Originated (m : Machine) : Prop :=
  ∀ eid, (m.enclaves eid).state ≠ .invalid → SlotOrigin as m eid

variable {m m' : Machine}

theorem cleanThread_cleanState (csrs : Csrs) :
    CleanThread (cleanState thread csrs) := by
  refine ⟨?_, rfl⟩
  intro i hi
  simp [cleanState, hi]

variable {as : List Arrival} {params : RuntimeParams} {eid : Nat}

theorem FilledBy.append {bs : List Arrival} (hFilled : FilledBy as params) :
    FilledBy (as ++ bs) params := by
  rcases hFilled with ⟨c, hMem, hRest⟩
  exact ⟨c, List.mem_append_left bs hMem, hRest⟩

/- A slot with the same region, parameters and, if it is fresh, the same context. -/
theorem SlotOrigin.frame {bs : List Arrival} (hOrigin : SlotOrigin as m eid)
    (hRegion : Owner.region m' (.epm eid) = Owner.region m (.epm eid))
    (hParams : (m'.enclaves eid).params = (m.enclaves eid).params)
    (hFresh : (m'.enclaves eid).state = .fresh → m'.enclaves eid = m.enclaves eid) :
    SlotOrigin (as ++ bs) m' eid := by
  refine ⟨?_, ?_, ?_⟩
  · rw [hParams]
    exact hOrigin.filled.append
  · rw [hRegion, hParams]
    exact hOrigin.epm
  · intro hState
    have hSame := hFresh hState
    rw [hSame] at hState ⊢
    exact hOrigin.clean hState

theorem slotOrigin_created {a : Arrival} {args : CreateArgs} {region shared : Nat} {t t' : PmpTable}
    (hTrap : a.trap = .ecall sbiSmCreateEnclave) (hArgs : a.env.createArgs = some args)
    (hAcc : CreateAccepted P (m.arrive a) args eid region shared t t') :
    SlotOrigin (as ++ [a]) ((m.arrive a).created P K a.hart eid args region shared t') eid := by
  have hSlot : ((m.arrive a).created P K a.hart eid args region shared t').enclaves eid =
      createdSlot K (m.arrive a) a.hart eid args region
      shared :=
    created_slot_self
  refine ⟨?_, ?_, ?_⟩
  · rw [hSlot]
    exact ⟨a, List.mem_append_right as (List.mem_singleton_self a), hTrap, args, hArgs, rfl⟩
  · rw [created_region_epm hAcc, hSlot]
    exact ⟨hAcc.epm.range.1, hAcc.epm.range.2.1⟩
  · intro _
    rw [hSlot]
    exact cleanThread_cleanState _ _

/- One trap keeps what the slots were created with. -/
theorem originated_effect {a : Arrival} {out : Outcome} (hInv : RegionInv P m)
    (hOrigin : Originated as m) (hEffect : Effect P K m a out m') : Originated (as ++ [a]) m' := by
  intro e hUsed
  cases hEffect with
  | quiet _ mem _ _ =>
    exact (hOrigin e hUsed).frame (arrive_owner a mem (.epm e)).2 rfl fun _ => rfl
  | created args eid region shared t t' _ hTrap hArgs hAcc =>
    by_cases hEq : e = eid
    · subst hEq
      exact slotOrigin_created hTrap hArgs hAcc
    · have hApart : (Owner.epm e).Apart eid := by
        simp [Owner.Apart, hEq]
      have hRegion := created_region_old (hInv.arrive a) hAcc hApart hUsed
      have hSlot : ((m.arrive a).created P K a.hart eid args region
          shared t').enclaves e = m.enclaves e :=
        created_slot_ne hEq
      rw [hSlot] at hUsed
      exact (hOrigin e hUsed).frame hRegion (congrArg Enclave.params hSlot) fun _ => hSlot
  | destroyed eid _ _ _ hOk =>
    by_cases hEq : e = eid
    · subst hEq
      exact absurd destroyed_state_self hUsed
    · have hApart : (Owner.epm e).Apart eid := by
        simp [Owner.Apart, hEq]
      have hSlot : ((m.arrive a).destroyed P eid).enclaves e = m.enclaves e := destroyed_slot_ne hEq
      rw [hSlot] at hUsed
      have hOld := destroyed_old (hInv.arrive a) (destroyable_used (m := m.arrive a) hOk)
        (o := .epm e) hUsed hApart
      exact (hOrigin e hUsed).frame hOld.2.2 (congrArg Enclave.params hSlot) fun _ => hSlot
  | entered eid load c _ _ _ hOk _ =>
    have hOwner := @entered_owner (m.arrive a) c eid a.hart a.regs load
      (Enterable.used (m := m.arrive a) hOk) (.epm e)
    have hKept := @entered_kept (m.arrive a) load a.regs c a.hart eid hOk.used e
    exact (hOrigin e (hOwner.1.mp hUsed)).frame hOwner.2 hKept.params hKept.fresh
  | left kind regs c _ _ hOk _ =>
    have hRunning := used_of_running (m := m.arrive a) hOk
    have hOwner := @left_owner (m.arrive a) c (m.cpus a.hart).eid a.hart regs kind.returnOnResume
      hRunning (.epm e)
    have hKept := @left_kept (m.arrive a) regs c a.hart _ kind.returnOnResume hRunning e
    exact (hOrigin e (hOwner.1.mp hUsed)).frame hOwner.2 hKept.params hKept.fresh

theorem originated_run {boot : Nat → Hart} {mem : Memory} {m₀ : Machine}
    (hInit : smInit P boot mem = some m₀) (hRun : Runs.exec (smStep P K keys) m₀ as = some m) :
    Originated as m := by
  have hStart : Originated [] m₀ := by
    intro eid hUsed
    rcases smInit_cases hInit with ⟨_, _, _, hSlots, _, _⟩
    rw [hSlots] at hUsed
    exact absurd rfl hUsed
  have hAny : Runs.Guarded (smStep P K keys) (fun _ _ => True) m₀ as := fun _ _ _ _ _ _ => trivial
  refine Runs.exec_history hStart ?_ hAny hRun
  intro pre t a u hPre hOrigin _ hStep
  have hInv := regionInv_run hInit hPre
  rcases smStep_effect hInv hStep with ⟨out, _, hEffect⟩
  exact originated_effect hInv hOrigin hEffect

----
-- The First Run
----

/- The argument registers of a first run. -/
def startArgument (params : RuntimeParams) (i : Fin 32) : Word :=
  if i = regA1 then params.dramBase
  else if i = regA2 then params.dramSize
  else if i = regA3 then params.runtimeBase
  else if i = regA4 then params.userBase
  else if i = regA5 then params.freeBase
  else if i = regA6 then params.untrustedBase
  else if i = regA7 then params.untrustedSize
  else 0

/- The state in which an enclave starts: its first instruction is the first one of its memory, in
   S-mode, and the registers but `scounteren` hold the parameters or zero. -/
structure StartsAt (params : RuntimeParams) (regs : TrapRegs) (csrs : Csrs) : Prop where
  pc : regs.mepc = params.dramBase
  mstatus : regs.mstatus = 0x800#64
  x : ∀ i ≠ 0, regs.x i = startArgument params i
  csrs : csrs = { Csrs.zero with scounteren := csrs.scounteren }

/- After the traps `as`, a `run_enclave` of an enclave with these parameters left through
   `sbi_sm_run_enclave`, with this frame and these S-mode registers. -/
def FirstRun (P : Platform) (K : Crypto) (keys : Keys) (as : List Arrival) (params : RuntimeParams)
    (regs : TrapRegs) (csrs : Csrs) : Prop :=
  ∃ boot mem m₀ m a m', smInit P boot mem = some m₀ ∧ Runs.exec (smStep P K keys) m₀ as = some m ∧
      a.trap = .ecall sbiSmRunEnclave ∧
      takeTrap P K keys m a = some (.trapExit .success regs, m') ∧
      (m.enclaves (toEid (a.regs.x regA0))).params = params ∧
      (m'.harts a.hart).csrs = csrs

theorem claim_thread (m : Machine) (eid : Nat) : ((m.claim eid).enclaves eid).thread =
    (m.enclaves eid).thread := by
  simp [Machine.claim, Machine.setEnclave]

theorem claim_params (m : Machine) (eid : Nat) : ((m.claim eid).enclaves eid).params =
    (m.enclaves eid).params := by
  simp [Machine.claim, Machine.setEnclave]

theorem entered_csrs (m : Machine) (h eid : Nat) (regs : TrapRegs) (load : Bool) (c : Riscv.PmpBank)
    : ((m.entered h eid regs load c).harts h).csrs = enteredCsrs m eid load := by
  simp [Machine.entered]

theorem CleanThread.startsAt (h : Nat) (regs : TrapRegs)
    (hClean : CleanThread (m.enclaves eid).thread) :
    StartsAt (m.enclaves eid).params (enterFinish true (enteredRegs m h eid regs true))
    (enteredCsrs m eid true) := by
  refine ⟨?_, rfl, ?_, ?_⟩
  · exact BitVec.sub_add_cancel _ _
  · intro i hi
    have hZero := hClean.state i hi
    simp only [enterFinish, if_true, TrapRegs.finish, enteredRegs, swapContext_eq, loadParameters,
      TrapRegs.setX, startArgument, SmError.code,
      Function.update_apply, hZero, regA0, regA1, regA2,
      regA3, regA4, regA5, regA6, regA7]
    -- the registers are distinct, so at most one test holds
    split_ifs <;> simp_all
  · have hCsrs := hClean.csrs
    simp only [enteredCsrs, if_true]
    rw [hCsrs]
    rfl

theorem StartsAt.unique {regs regs' : TrapRegs} {csrs csrs' : Csrs}
    (hStart : StartsAt params regs csrs) (hStart' : StartsAt params regs' csrs') :
    regs.mepc = regs'.mepc ∧ regs.mstatus = regs'.mstatus ∧ (∀ i ≠ 0, regs.x i = regs'.x i) ∧
    { csrs with scounteren := 0 } = { csrs' with scounteren := 0 } := by
  refine ⟨hStart.pc.trans hStart'.pc.symm, hStart.mstatus.trans hStart'.mstatus.symm, ?_, ?_⟩
  · intro i hi
    rw [hStart.x i hi, hStart'.x i hi]
  · rw [hStart.csrs, hStart'.csrs]

theorem FirstRun.startsAt {regs : TrapRegs} {csrs : Csrs}
    (hFirst : FirstRun P K keys as params regs csrs) :
    FilledBy as params ∧ StartsAt params regs csrs := by
  rcases hFirst with ⟨boot, mem, m₀, m, a, m', hInit, hRun, hTrap, hTake, hParams, hCsrs⟩
  have hInv := regionInv_run hInit hRun
  have hOrigin := originated_run hInit hRun
  have hEffect := takeTrap_effect hInv hTake
  generalize hOutcome : Outcome.trapExit .success regs = out at hEffect
  cases hEffect with
  | quiet _ mem hOut hReturn => rcases hOut _ _ hOutcome.symm with h | h | h <;> cases h
  | created | destroyed => cases hOutcome
  | entered eid load c hHost hEnter hEid hOk hBank =>
    cases load with
    | false =>
      rw [hTrap] at hEnter
      cases hEnter
    | true =>
      subst hEid
      injection hOutcome with _ hRegs
      have hFresh : (m.enclaves (toEid (a.regs.x regA0))).state = .fresh := hOk.2
      have hSlot := hOrigin (toEid (a.regs.x regA0)) (by rw [hFresh]; decide)
      have hClaimed : CleanThread (((m.arrive a).claim (toEid (a.regs.x regA0))).enclaves
          (toEid (a.regs.x regA0))).thread := by
        rw [claim_thread]
        exact hSlot.clean hFresh
      have hStart := hClaimed.startsAt a.hart a.regs
      rw [claim_params] at hStart
      subst hParams hCsrs hRegs
      rw [entered_csrs]
      exact ⟨hSlot.filled, hStart⟩
  | left kind regs c hIn hRequest hOk hBank =>
    simp [leaveRequest, hTrap, sbiSmRunEnclave, sbiSmStopEnclave, sbiSmExitEnclave] at hRequest

/- The state an enclave starts in is fixed by its creation parameters, whatever ran before in its
   slot and whatever the host had in its registers. -/
theorem enclave_starts_clean (as : List Arrival) (params : RuntimeParams) (regs : TrapRegs)
    (csrs : Csrs) (hFirst : FirstRun P K keys as params regs csrs) :
    FilledBy as params ∧ StartsAt params regs csrs ∧ ∀ as' regs' csrs',
    FirstRun P K keys as' params regs' csrs' → regs.mepc = regs'.mepc ∧
    regs.mstatus = regs'.mstatus ∧
    (∀ i ≠ 0, regs.x i = regs'.x i) ∧
    { csrs with scounteren := 0 } = { csrs' with scounteren := 0 } := by
  rcases hFirst.startsAt with ⟨hFilled, hStart⟩
  refine ⟨hFilled, hStart, ?_⟩
  intro as' regs' csrs' hFirst'
  exact hStart.unique hFirst'.startsAt.2

/- Whether a trap entered an enclave, and its parameters. -/
def sampleEntry (m : Machine) : Option RuntimeParams :=
  (takeTrap .generic sampleCrypto sampleKeys m (sampleTrap 1 (.ecall sbiSmRunEnclave) 0)).bind
    fun r =>
      match r.1 with
      | .trapExit .success _ => some (m.enclaves 0).params
      | _ => none

theorem enclave_starts_clean_sample : ∃ regs csrs, FirstRun .generic sampleCrypto sampleKeys
    [createTrap]
    sampleArgs.params regs csrs ∧
    StartsAt sampleArgs.params regs csrs := by
  have hEntry : ((sampleRun [createTrap]).bind
      sampleEntry) = some sampleArgs.params := by
    decide +kernel
  rcases Option.bind_eq_some_iff.mp hEntry with ⟨m, hRun, hTake⟩
  rcases Option.bind_eq_some_iff.mp hRun with ⟨m₀, hInit, hExec⟩
  rcases Option.bind_eq_some_iff.mp hTake with ⟨⟨out, m'⟩, hTrap, hOut⟩
  rcases out with ⟨retval, outVal⟩ | ⟨ret, regs⟩ | _
  · cases hOut
  · cases ret <;> simp at hOut
    have hFirst : FirstRun .generic sampleCrypto sampleKeys
        [createTrap]
        sampleArgs.params regs (m'.harts 1).csrs :=
      ⟨sampleBoot, fun _ => 0, m₀, m, sampleTrap 1 (.ecall sbiSmRunEnclave) 0, m', hInit,
        hExec, rfl, hTrap, hOut, rfl⟩
    exact ⟨regs, (m'.harts 1).csrs, hFirst, (enclave_starts_clean _ _ _ _ hFirst).2.1⟩
  · cases hOut

end Keystone
