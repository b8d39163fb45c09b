import Keystone.Sm.CreateDestroy

/-
  Everything one trap can do to a machine between calls.

  A trap has one of five effects: none on the monitor's state, a new enclave, a destroyed enclave, a
  hart that enters an enclave, or a hart that leaves one. Every later invariant is a case analysis
  over these five.
-/

----
-- Lock Sections Of Entering And Leaving
----

namespace Keystone

open Option (bind_eq_some_iff bind_map some)

variable (P : Platform) (m : Machine) (eid : Nat)

/- The slot after the lock section of a run or resume. -/
def Machine.claim : Machine :=
  m.setEnclave eid
    { m.enclaves eid with state := .running, nThread := (m.enclaves eid).nThread + 1#32 }

/- The slot after the lock section of a stop or exit. -/
def Machine.unclaim : Machine :=
  m.setEnclave eid
    { m.enclaves eid with
      nThread := (m.enclaves eid).nThread - 1#32
      state :=
        if (m.enclaves eid).nThread - 1#32 = 0#32 then
          .stopped
        else .running }

/- The guard of `run_enclave` or of `resume_enclave`. -/
def Enterable (load : Bool) : Prop :=
  enclaveExists P m eid = true ∧ if load then (m.enclaves eid).state = .fresh else
      ((m.enclaves eid).state = .running ∨ (m.enclaves eid).state = .stopped) ∧
        (m.enclaves eid).nThread < maxEnclThreads

/- Which of the two ways an enclave is left, and with what. -/
inductive LeaveKind where
| exit (retval : Word)
| stop (request : Word)
deriving DecidableEq, Repr

namespace LeaveKind

def returnOnResume : LeaveKind → Bool
| .exit _ => false
| .stop request => decide (request = stopEdgeCallHost)

def ret : LeaveKind → SmError
| .exit _ => .success
| .stop request => stopCode request

/- The frame as the wrapper hands it to the host. -/
def finish (kind : LeaveKind) (regs : TrapRegs) : TrapRegs :=
  match kind with
  | .exit retval => (regs.finish .success).setX regA1 retval
  | .stop request => regs.finish (stopCode request)

end LeaveKind

/- The request to leave that a trap amounts to, with the frame it passes on. -/
def leaveRequest (a : Arrival) : Option (LeaveKind × TrapRegs) :=
  match a.trap with
  | .ecall funcid =>
    if funcid = sbiSmStopEnclave then
      some (.stop (a.regs.x regA0), a.regs)
    else if funcid = sbiSmExitEnclave then
      some (.exit (a.regs.x regA0), a.regs)
    else none
  | .interrupt => some (.stop stopTimerInterrupt, { a.regs with mepc := a.regs.mepc - 4#64 })
  | .failure rc => some (.exit rc, a.regs)

/- The frame a resume or run hands to the enclave. -/
def enterFinish (load : Bool) (regs : TrapRegs) : TrapRegs :=
  if load then regs.finish .success
  else
    let regs :=
      if regs.x regZero = 0#64 then
        regs.setX regA0 SmError.success.code
      else regs
    { regs with mepc := regs.mepc + 4#64 }

----
-- Effects
----

open Riscv

/- The hart is in the context that the trap needs. -/
def InEnclave (a : Arrival) : Prop :=
  match a.trap with
  | .ecall _ => (m.cpus a.hart).isEnclave = true
  | _ => (m.harts a.hart).mtvec = .enclave

/- The effects of a trap `a` taken in state `m`. -/
inductive Effect (P : Platform) (K : Crypto) (m : Machine)
    (a : Arrival) : Outcome → Machine → Prop where
| quiet (out : Outcome) (mem : Memory)
    (hOut : ∀ ret regs, out = .trapExit ret regs → ret = .notFresh ∨ ret = .notResumable ∨
          ret = .notRunning)
    (hReturn : ∀ retval outVal, out = .returned retval outVal → a.trap = .ecall sbiSmCreateEnclave ∨
            a.trap = .ecall sbiSmDestroyEnclave →
          retval ≠ SmError.success.code) :
    Effect P K m a out ((m.arrive a).setMem mem)
| created (args : CreateArgs) (eid region sharedRegion : Nat) (t t' : PmpTable)
    (hHost : (m.cpus a.hart).isEnclave = false) (hTrap : a.trap = .ecall sbiSmCreateEnclave)
    (hArgs : a.env.createArgs = some args)
    (hAccepted : CreateAccepted P (m.arrive a) args eid region sharedRegion t t') :
    Effect P K m a (.returned SmError.success.code (some (BitVec.ofNat 64 eid)))
      ((m.arrive a).created P K a.hart eid args region sharedRegion t')
| destroyed (eid : Nat) (hHost : (m.cpus a.hart).isEnclave = false)
    (hTrap : a.trap = .ecall sbiSmDestroyEnclave) (hEid : eid = toEid (a.regs.x regA0))
    (hOk : destroyable P m eid = true) :
    Effect P K m a (.returned SmError.success.code none) ((m.arrive a).destroyed P eid)
| entered (eid : Nat) (load : Bool) (c : PmpBank) (hHost : (m.cpus a.hart).isEnclave = false)
    (hTrap : a.trap = .ecall (if load then sbiSmRunEnclave else sbiSmResumeEnclave))
    (hEid : eid = toEid (a.regs.x regA0)) (hOk : Enterable P m eid load)
    (hBank : enterBank P m eid (m.harts a.hart).pmp = some c) :
    Effect P K m a (.trapExit .success (enterFinish load
          (enteredRegs ((m.arrive a).claim eid) a.hart eid a.regs load)))
      (((m.arrive a).claim eid).entered a.hart eid a.regs load c)
| left (kind : LeaveKind) (regs : TrapRegs) (c : PmpBank) (hIn : InEnclave m a)
    (hRequest : leaveRequest a = some (kind, regs))
    (hOk : (m.enclaves (m.cpus a.hart).eid).state = .running)
    (hBank : leaveBank P m (m.cpus a.hart).eid (m.harts a.hart).pmp = some c) :
    Effect P K m a (.trapExit kind.ret (kind.finish (leftRegs ((m.arrive a).unclaim
            (m.cpus a.hart).eid) a.hart
            (m.cpus a.hart).eid regs kind.returnOnResume)))
      (((m.arrive a).unclaim (m.cpus a.hart).eid).left a.hart (m.cpus a.hart).eid regs
        kind.returnOnResume c)

----
-- Frames Of The Region Invariant
----

variable {P : Platform} {m m' : Machine}

/- A switch of context keeps what a slot was created with. -/
structure SlotKept (x y : Enclave) : Prop where
  regions : y.regions = x.regions
  params : y.params = x.params
  hash : y.hash = x.hash
  state : y = x ∨ x.state ≠ .invalid ∧ (y.state = .running ∨ y.state = .stopped)

theorem SlotKept.refl (x : Enclave) : SlotKept x x := ⟨rfl, rfl, rfl, .inl rfl⟩

theorem SlotKept.used {x y : Enclave} (hKept : SlotKept x y) :
    y.state = .invalid ↔ x.state = .invalid := by
  rcases hKept.state with hSame | ⟨hUsed, hState | hState⟩
  · rw [hSame]
  · simp [hState, hUsed]
  · simp [hState, hUsed]

theorem SlotKept.fresh {x y : Enclave} (hKept : SlotKept x y) (hFresh : y.state = .fresh) :
    y = x := by
  rcases hKept.state with hSame | ⟨_, hState | hState⟩
  · exact hSame
  · cases hState.symm.trans hFresh
  · cases hState.symm.trans hFresh

/- The region invariant reads the table, the slots' regions and whether a slot is in use. -/
theorem RegionInv.frame (hInv : RegionInv P m)
    (hPmp : m'.pmp = m.pmp)
    (hSm : m'.smRegionId = m.smRegionId)
    (hOs : m'.osRegionId = m.osRegionId)
    (hSlots : ∀ eid, SlotKept (m.enclaves eid) (m'.enclaves eid)) :
    RegionInv P m' := by
  have hUsed := fun eid => (hSlots eid).used
  have hRegions := fun eid => (hSlots eid).regions
  have hRid : ∀ o : Owner, o.rid m' = o.rid m := by
    intro o
    cases o with
    | sm => exact hSm
    | os => exact hOs
    | epm eid | utm eid => simp only [Owner.rid, hRegions]
  have hLive : ∀ o : Owner, o.Live m' ↔ o.Live m := by
    intro o
    cases o with
    | sm | os => exact Iff.rfl
    | epm eid | utm eid => exact not_congr (hUsed eid)
  refine ⟨?_, ?_, ?_, ?_, ?_, ?_, ?_, ?_, ?_, ?_⟩
  · rw [hPmp]
    exact hInv.table
  · intro eid
    rcases (hSlots eid).state with hSame | ⟨_, hState | hState⟩
    · rw [hSame]
      exact hInv.settled eid
    · simp [hState]
    · simp [hState]
  · intro eid hState
    exact hInv.slot_lt eid (mt (hUsed eid).mpr hState)
  · intro eid hState
    rw [hRegions]
    exact hInv.shape eid (mt (hUsed eid).mpr hState)
  · intro eid hState i
    rw [hRegions]
    exact hInv.unused eid ((hUsed eid).mp hState) i
  · intro o ho
    rw [hPmp, hRid]
    exact hInv.valid o ((hLive o).mp ho)
  · intro o o' ho ho' hEq
    rw [hRid, hRid] at hEq
    exact hInv.inj o o' ((hLive o).mp ho) ((hLive o').mp ho') hEq
  · intro i hi
    rw [hPmp] at hi
    rcases hInv.owner i hi with ⟨o, ho, hEq⟩
    exact ⟨o, (hLive o).mpr ho, (hRid o).trans hEq⟩
  · intro o ho
    rw [Owner.region, hPmp, hRid]
    exact hInv.desc o ((hLive o).mp ho)
  · rw [hPmp]
    exact hInv.taken

theorem RegionInv.arrive (hInv : RegionInv P m) (a : Arrival) : RegionInv P (m.arrive a) :=
  hInv.frame rfl rfl rfl fun _ => SlotKept.refl _

----
-- Entering And Leaving In One Equation
----

theorem enterBank_claim (m : Machine) (eid : Nat) (c : PmpBank) :
    enterBank P (m.claim eid) eid c = enterBank P m eid c := by
  simp [enterBank, Machine.claim, Machine.setEnclave]

theorem leaveBank_unclaim (m : Machine) (eid : Nat) (c : PmpBank) :
    leaveBank P (m.unclaim eid) eid c = leaveBank P m eid c := by
  simp [leaveBank, Machine.unclaim, Machine.setEnclave]

theorem claim_switch (m : Machine) (h : Nat) (regs : TrapRegs) (eid : Nat) (load : Bool) :
    contextSwitchToEnclave P (m.claim eid) h regs eid load =
    (enterBank P m eid (m.harts h).pmp).map fun c =>
    (enteredRegs (m.claim eid) h eid regs load, (m.claim eid).entered h eid regs load c) := by
  rw [contextSwitchToEnclave_eq, enterBank_claim]
  rfl

theorem unclaim_switch (m : Machine) (h : Nat) (regs : TrapRegs) (eid : Nat)
    (returnOnResume : Bool) :
    contextSwitchToHost P (m.unclaim eid) h regs eid returnOnResume =
    (leaveBank P m eid (m.harts h).pmp).map fun c =>
    (leftRegs (m.unclaim eid) h eid regs returnOnResume,
      (m.unclaim eid).left h eid regs returnOnResume c) := by
  rw [contextSwitchToHost_eq, leaveBank_unclaim]
  rfl

variable {eid h : Nat} {regs regs' : TrapRegs} {ret : SmError}

theorem enter_cases {guard load : Bool} {refusal : SmError}
    (hEnter : (match (if guard then (true, m.claim eid) else (false, m)) with
        | (false, m) => some (refusal, regs, m)
        | (true, m) => do
            let (regs, m) ← contextSwitchToEnclave P m h regs eid load
            return (.success, regs, m)) =
        some (ret, regs', m')) : (ret = refusal ∧ regs' = regs ∧ m' = m) ∨ ∃ c, guard = true ∧
        enterBank P m eid (m.harts h).pmp = some c ∧
        ret = .success ∧
        regs' = enteredRegs (m.claim eid) h eid regs load ∧
        m' = (m.claim eid).entered h eid regs load c := by
  cases guard with
  | false =>
    left
    simp only [Bool.false_eq_true, if_false, some.injEq, Prod.mk.injEq] at hEnter
    exact ⟨hEnter.1.symm, hEnter.2.1.symm, hEnter.2.2.symm⟩
  | true =>
    right
    simp only [if_true, claim_switch, bind, bind_map, bind_eq_some_iff] at hEnter
    rcases hEnter with ⟨c, hBank, hEq⟩
    simp only [Function.comp_apply, pure, some.injEq, Prod.mk.injEq] at hEq
    exact ⟨c, rfl, hBank, hEq.1.symm, hEq.2.1.symm, hEq.2.2.symm⟩

theorem runEnclave_cases (hRun : runEnclave P m h regs eid = some (ret, regs', m')) :
    (ret = .notFresh ∧ regs' = regs ∧ m' = m) ∨ ∃ c, Enterable P m eid true ∧
    enterBank P m eid (m.harts h).pmp = some c ∧ ret = .success ∧
    regs' = enteredRegs (m.claim eid) h eid regs true ∧
    m' = (m.claim eid).entered h eid regs true c := by
  rcases enter_cases hRun with hRefused | ⟨c, hGuard, hRest⟩
  · exact .inl hRefused
  · right
    simp only [Bool.and_eq_true, decide_eq_true_eq] at hGuard
    exact ⟨c, ⟨hGuard.1, hGuard.2⟩, hRest⟩

theorem resumeEnclave_cases (hResume : resumeEnclave P m h regs eid = some (ret, regs', m')) :
    (ret = .notResumable ∧ regs' = regs ∧ m' = m) ∨ ∃ c, Enterable P m eid false ∧
    enterBank P m eid (m.harts h).pmp = some c ∧ ret = .success ∧
    regs' = enteredRegs (m.claim eid) h eid regs false ∧
    m' = (m.claim eid).entered h eid regs false c := by
  rcases enter_cases hResume with hRefused | ⟨c, hGuard, hRest⟩
  · exact .inl hRefused
  · right
    simp only [Bool.and_eq_true, Bool.or_eq_true, decide_eq_true_eq] at hGuard
    exact ⟨c, ⟨hGuard.1.1, hGuard.1.2, hGuard.2⟩, hRest⟩

theorem leave_cases {returnOnResume : Bool} {code : SmError} (hLeave : (match leaveCheck m eid with
        | (false, m) => some (.notRunning, regs, m)
        | (true, m) => do
            let (regs, m) ← contextSwitchToHost P m h regs eid returnOnResume
            return (code, regs, m)) =
        some (ret, regs', m')) :
    (ret = .notRunning ∧ regs' = regs ∧ m' = m) ∨ ∃ c, (m.enclaves eid).state = .running ∧
        leaveBank P m eid (m.harts h).pmp = some c ∧
        ret = code ∧
        regs' = leftRegs (m.unclaim eid) h eid regs returnOnResume ∧
        m' = (m.unclaim eid).left h eid regs returnOnResume
            c := by
  have hCheck : leaveCheck m eid = if (m.enclaves eid).state = .running then
      (true, m.unclaim eid)
      else (false, m) := rfl
  rw [hCheck] at hLeave
  by_cases hState : (m.enclaves eid).state = .running
  · right
    simp only [hState, if_true, unclaim_switch, bind, bind_map, bind_eq_some_iff] at hLeave
    rcases hLeave with ⟨c, hBank, hEq⟩
    simp only [Function.comp_apply, pure, some.injEq, Prod.mk.injEq] at hEq
    exact ⟨c, hState, hBank, hEq.1.symm, hEq.2.1.symm, hEq.2.2.symm⟩
  · left
    simp only [hState, if_false, some.injEq, Prod.mk.injEq] at hLeave
    exact ⟨hLeave.1.symm, hLeave.2.1.symm, hLeave.2.2.symm⟩

----
-- Services
----

variable (P : Platform) (K : Crypto) (keys : Keys) (env : Env) (m : Machine)

theorem attestEnclave_memory (h : Nat) (reportPtr data size : Word) (eid : Nat) : ∃ mem,
    (attestEnclave P K keys env m h reportPtr data size eid).2 = m.setMem mem := by
  unfold attestEnclave
  split
  · exact ⟨m.mem, rfl⟩
  · split
    · exact ⟨m.mem, rfl⟩
    · split
      · exact ⟨m.mem, rfl⟩
      · rename_i bytes _
        dsimp only
        split
        · exact ⟨_, rfl⟩
        · exact ⟨_, rfl⟩

theorem getSealingKey_memory (sealingKey keyIdent keyIdentSize : Word) (eid : Nat) : ∃ mem,
    (getSealingKey K keys env m sealingKey keyIdent keyIdentSize eid).2 = m.setMem mem := by
  unfold getSealingKey
  split
  · exact ⟨_, rfl⟩
  · exact ⟨_, rfl⟩

theorem callPlugin_memory (h eid : Nat) (pluginId callId arg0 : Word) : ∃ mem,
    (callPlugin P env m h eid pluginId callId arg0).2 = m.setMem mem := by
  have hOther : ∀ get, ∃ mem, (multimemGetOther P env m h eid get arg0).2 = m.setMem mem := by
    intro get
    unfold multimemGetOther
    split
    · exact ⟨m.mem, rfl⟩
    · exact ⟨_, rfl⟩
  unfold callPlugin doSbiMultimem
  split
  · split
    · exact hOther _
    · split
      · exact hOther _
      · exact ⟨m.mem, rfl⟩
  · exact ⟨m.mem, rfl⟩

----
-- Classification
----

variable {P : Platform} {K : Crypto} {keys : Keys} {m : Machine} {a : Arrival} {out : Outcome}
variable {funcid : Word}

theorem SmError.code_ne_success (hRet : ret ≠ .success) : ret.code ≠ SmError.success.code := by
  cases ret <;> first | exact absurd rfl hRet | decide

theorem Effect.ofError (hRet : ret ≠ .success) (outVal : Option Word) :
    Effect P K m a (.returned ret.code outVal) (m.arrive a) := by
  apply Effect.quiet _ (m.arrive a).mem
  · intro ret' regs hOut
    cases hOut
  · intro retval outVal' hOut _
    cases hOut
    exact SmError.code_ne_success hRet

theorem Effect.ofService (hTrap : a.trap = .ecall funcid) (hCreate : ¬ funcid = sbiSmCreateEnclave)
    (hDestroy : ¬ funcid = sbiSmDestroyEnclave) (retval : Word) (outVal : Option Word)
    (mem : Memory) : Effect P K m a (.returned retval outVal) ((m.arrive a).setMem mem) := by
  apply Effect.quiet
  · intro ret regs hOut
    cases hOut
  · intro retval' outVal' hOut hCall
    rw [hTrap] at hCall
    rcases hCall with hEq | hEq
    · cases hEq
      exact absurd rfl hCreate
    · cases hEq
      exact absurd rfl hDestroy

theorem Effect.ofRefused (hRet : ret = .notFresh ∨ ret = .notResumable ∨ ret = .notRunning)
    (regs : TrapRegs) : Effect P K m a (.trapExit ret regs) (m.arrive a) := by
  apply Effect.quiet _ (m.arrive a).mem
  · intro ret' regs' hOut
    cases hOut
    exact hRet
  · intro retval outVal hOut
    cases hOut

theorem sbiSmCreate_effect (hInv : RegionInv P m) (hHost : (m.cpus a.hart).isEnclave = false)
    (hTrap : a.trap = .ecall sbiSmCreateEnclave)
    (hCall : sbiSmCreate P K a.env (m.arrive a) a.hart = some (out, m')) :
    Effect P K m a out m' := by
  unfold sbiSmCreate at hCall
  split at hCall
  · cases hCall
    exact .ofError (by decide) _
  · rename_i args hArgs
    simp only [bind, bind_eq_some_iff] at hCall
    rcases hCall with ⟨r, hCreate, hEq⟩
    cases hEq
    rcases createEnclave_cases (hInv.arrive a).table hCreate with ⟨hFailed, _, hSame⟩ |
        ⟨eid, region, shared, t, t', hAccepted, hRet⟩
    · rw [hSame]
      exact .ofError hFailed _
    · rw [hRet]
      exact Effect.created args eid region shared t t' hHost hTrap hArgs hAccepted

theorem sbiSmDestroy_effect (hInv : RegionInv P m) (hHost : (m.cpus a.hart).isEnclave = false)
    (hTrap : a.trap = .ecall sbiSmDestroyEnclave)
    (hCall : sbiSmDestroy P (m.arrive a) (a.regs.x regA0) = some (out, m')) :
    Effect P K m a out m' := by
  unfold sbiSmDestroy at hCall
  rw [destroyEnclave_eq (hInv.arrive a)] at hCall
  by_cases hOk : destroyable P (m.arrive a) (toEid (a.regs.x regA0)) = true
  · rw [if_pos hOk] at hCall
    cases hCall
    exact Effect.destroyed _ hHost hTrap rfl hOk
  · rw [if_neg hOk] at hCall
    cases hCall
    exact .ofError (by decide) _

theorem arrive_bank (m : Machine) (a : Arrival) (h : Nat) :
    ((m.arrive a).harts h).pmp = (m.harts h).pmp := by
  by_cases hEq : h = a.hart
  · simp [Machine.arrive, Machine.setHart, Machine.setMem, hEq]
  · simp [Machine.arrive, Machine.setHart, Machine.setMem, hEq]

theorem sbiSmRun_effect (hHost : (m.cpus a.hart).isEnclave = false)
    (hTrap : a.trap = .ecall sbiSmRunEnclave)
    (hCall : sbiSmRun P (m.arrive a) a.hart a.regs (a.regs.x regA0) = some (out, m')) :
    Effect P K m a out m' := by
  unfold sbiSmRun at hCall
  simp only [bind, bind_eq_some_iff] at hCall
  rcases hCall with ⟨⟨ret, regs, m₁⟩, hRun, hEq⟩
  cases hEq
  rcases runEnclave_cases hRun with ⟨hRet, _, hSame⟩ | ⟨c, hOk, hBank, hRet, hRegs, hNew⟩
  · rw [hSame]
    exact .ofRefused (.inl hRet) _
  · rw [hRet, hRegs, hNew]
    rw [arrive_bank] at hBank
    exact .entered _ true c hHost hTrap rfl hOk hBank

theorem sbiSmResume_effect (hHost : (m.cpus a.hart).isEnclave = false)
    (hTrap : a.trap = .ecall sbiSmResumeEnclave)
    (hCall : sbiSmResume P (m.arrive a) a.hart a.regs (a.regs.x regA0) = some (out, m')) :
    Effect P K m a out m' := by
  unfold sbiSmResume at hCall
  simp only [bind, bind_eq_some_iff] at hCall
  rcases hCall with ⟨⟨ret, regs, m₁⟩, hResume, hEq⟩
  cases hEq
  rcases resumeEnclave_cases hResume with ⟨hRet, _, hSame⟩ | ⟨c, hOk, hBank, hRet, hRegs, hNew⟩
  · rw [hSame]
    exact .ofRefused (.inr (.inl hRet)) _
  · rw [hRet, hRegs, hNew]
    rw [arrive_bank] at hBank
    exact .entered _ false c hHost hTrap rfl hOk hBank

theorem sbiSmExit_effect {retval : Word} (hIn : InEnclave m a)
    (hRequest : leaveRequest a = some (.exit retval, regs))
    (hCall : sbiSmExit P (m.arrive a) a.hart regs retval = some (out, m')) :
    Effect P K m a out m' := by
  unfold sbiSmExit at hCall
  simp only [bind, bind_eq_some_iff] at hCall
  rcases hCall with ⟨⟨ret, regs', m₁⟩, hExit, hEq⟩
  cases hEq
  rcases leave_cases hExit with ⟨hRet, _, hSame⟩ | ⟨c, hOk, hBank, hRet, hRegs, hNew⟩
  · rw [hSame]
    exact .ofRefused (.inr (.inr hRet)) _
  · rw [hRet, hRegs, hNew]
    rw [arrive_bank] at hBank
    exact .left (.exit retval) regs c hIn hRequest hOk hBank

theorem sbiSmStop_effect {request : Word} (hIn : InEnclave m a)
    (hRequest : leaveRequest a = some (.stop request, regs))
    (hCall : sbiSmStop P (m.arrive a) a.hart regs request = some (out, m')) :
    Effect P K m a out m' := by
  unfold sbiSmStop at hCall
  simp only [bind, bind_eq_some_iff] at hCall
  rcases hCall with ⟨⟨ret, regs', m₁⟩, hStop, hEq⟩
  cases hEq
  rcases leave_cases hStop with ⟨hRet, _, hSame⟩ | ⟨c, hOk, hBank, hRet, hRegs, hNew⟩
  · rw [hSame]
    exact .ofRefused (.inr (.inr hRet)) _
  · rw [hRet, hRegs, hNew]
    rw [arrive_bank] at hBank
    exact .left (.stop request) regs c hIn hRequest hOk hBank

theorem isEnclave_of_host_range (hRange : funcid ≤ fidRangeHost)
    (hAllowed : ¬ sbiProhibited m h funcid = true) : (m.cpus h).isEnclave = false := by
  simpa [sbiProhibited, hRange] using hAllowed

theorem isEnclave_of_enclave_range (hHost : ¬ funcid ≤ fidRangeHost)
    (hRange : funcid ≤ fidRangeEnclave) (hAllowed : ¬ sbiProhibited m h funcid = true) :
    (m.cpus h).isEnclave = true := by
  simpa [sbiProhibited, hHost, hRange] using hAllowed

theorem sbiDispatch_effect (hInv : RegionInv P m) (hTrap : a.trap = .ecall funcid)
    (hAllowed : ¬ sbiProhibited (m.arrive a) a.hart funcid = true)
    (hCall : sbiDispatch P K keys a.env (m.arrive a) a.hart funcid a.regs = some (out, m')) :
    Effect P K m a out m' := by
  unfold sbiDispatch at hCall
  dsimp only at hCall
  by_cases hCreate : funcid = sbiSmCreateEnclave
  · subst hCreate
    exact sbiSmCreate_effect hInv (isEnclave_of_host_range (m := m.arrive a) (by decide)
        hAllowed) hTrap hCall
  rw [if_neg hCreate] at hCall
  by_cases hDestroy : funcid = sbiSmDestroyEnclave
  · subst hDestroy
    exact sbiSmDestroy_effect hInv (isEnclave_of_host_range (m := m.arrive a) (by decide)
        hAllowed) hTrap hCall
  rw [if_neg hDestroy] at hCall
  by_cases hRun : funcid = sbiSmRunEnclave
  · subst hRun
    exact sbiSmRun_effect (isEnclave_of_host_range (m := m.arrive a) (by decide)
        hAllowed) hTrap hCall
  rw [if_neg hRun] at hCall
  by_cases hResume : funcid = sbiSmResumeEnclave
  · subst hResume
    exact sbiSmResume_effect (isEnclave_of_host_range (m := m.arrive a) (by decide)
        hAllowed) hTrap hCall
  rw [if_neg hResume] at hCall
  by_cases hRandom : funcid = sbiSmRandom
  · rw [if_pos hRandom] at hCall
    cases hCall
    exact .ofService hTrap hCreate hDestroy _ _ (m.arrive a).mem
  rw [if_neg hRandom] at hCall
  by_cases hAttest : funcid = sbiSmAttestEnclave
  · rw [if_pos hAttest] at hCall
    cases hCall
    rcases attestEnclave_memory P K keys a.env (m.arrive a) a.hart (a.regs.x regA0) (a.regs.x regA1)
        (a.regs.x regA2) ((m.arrive a).cpus a.hart).eid with
      ⟨mem, hMem⟩
    rw [hMem]
    exact .ofService hTrap hCreate hDestroy _ _ mem
  rw [if_neg hAttest] at hCall
  by_cases hSeal : funcid = sbiSmGetSealingKey
  · rw [if_pos hSeal] at hCall
    cases hCall
    rcases getSealingKey_memory K keys a.env (m.arrive a) (a.regs.x regA0) (a.regs.x regA1)
        (a.regs.x regA2) ((m.arrive a).cpus a.hart).eid with
      ⟨mem, hMem⟩
    rw [hMem]
    exact .ofService hTrap hCreate hDestroy _ _ mem
  rw [if_neg hSeal] at hCall
  by_cases hStop : funcid = sbiSmStopEnclave
  · subst hStop
    have hIn := isEnclave_of_enclave_range (m := m.arrive a) (by decide) (by decide) hAllowed
    refine sbiSmStop_effect ?_ ?_ hCall
    · simp only [InEnclave, hTrap]
      exact hIn
    · simp [leaveRequest, hTrap]
  rw [if_neg hStop] at hCall
  by_cases hExit : funcid = sbiSmExitEnclave
  · subst hExit
    have hIn := isEnclave_of_enclave_range (m := m.arrive a) (by decide) (by decide) hAllowed
    refine sbiSmExit_effect ?_ ?_ hCall
    · simp only [InEnclave, hTrap]
      exact hIn
    · simp [leaveRequest, hTrap, hStop]
  rw [if_neg hExit] at hCall
  by_cases hPlugin : funcid = sbiSmCallPlugin
  · rw [if_pos hPlugin] at hCall
    cases hCall
    rcases callPlugin_memory P a.env (m.arrive a) a.hart
        ((m.arrive a).cpus a.hart).eid (a.regs.x regA0)
        (a.regs.x regA1) (a.regs.x regA2) with
      ⟨mem, hMem⟩
    rw [hMem]
    exact .ofService hTrap hCreate hDestroy _ _ mem
  · rw [if_neg hPlugin] at hCall
    cases hCall
    exact .ofService hTrap hCreate hDestroy _ _ (m.arrive a).mem

/- Every trap has one of the five effects. -/
theorem takeTrap_effect (hInv : RegionInv P m) (hTake : takeTrap P K keys m a = some (out, m')) :
    Effect P K m a out m' := by
  have hFirmware : Effect P K m a .firmware (m.arrive a) := by
    apply Effect.quiet _ (m.arrive a).mem
    · intro ret regs hOut
      cases hOut
    · intro retval outVal hOut
      cases hOut
  have hVector : ((m.arrive a).harts a.hart).mtvec = (m.harts a.hart).mtvec := by
    simp [Machine.arrive, Machine.setHart, Machine.setMem]
  unfold takeTrap at hTake
  dsimp only at hTake
  split at hTake
  · rename_i funcid hTrap
    unfold sbiEcallHandler at hTake
    split at hTake
    · cases hTake
      exact .ofError (by decide) _
    split at hTake
    · cases hTake
      exact .ofError (by decide) _
    · rename_i hAllowed
      exact sbiDispatch_effect hInv hTrap hAllowed hTake
  · rename_i hTrap
    rw [hVector] at hTake
    split at hTake
    · rename_i hEnclave
      refine sbiSmStop_effect ?_ ?_ hTake
      · simp only [InEnclave, hTrap]
        exact hEnclave
      · simp [leaveRequest, hTrap]
    · cases hTake
      exact hFirmware
  · rename_i rc hTrap
    rw [hVector] at hTake
    split at hTake
    · rename_i hEnclave
      refine sbiSmExit_effect ?_ ?_ hTake
      · simp only [InEnclave, hTrap]
        exact hEnclave
      · simp [leaveRequest, hTrap]
    · cases hTake
      exact hFirmware

theorem smStep_effect (hInv : RegionInv P m) (hStep : smStep P K keys m a = some m') :
    ∃ out, takeTrap P K keys m a = some (out, m') ∧ Effect P K m a out m' := by
  rcases Option.map_eq_some_iff.mp hStep with ⟨⟨out, m₁⟩, hTake, hEq⟩
  cases hEq
  exact ⟨out, hTake, takeTrap_effect hInv hTake⟩

end Keystone
