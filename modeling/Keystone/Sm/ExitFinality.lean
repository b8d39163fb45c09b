import Keystone.Sm.Statics

/-
  Whether an exited enclave can execute again.

  `exit_enclave` leaves the slot in the same state as `stop_enclave`, and `resume_enclave` looks at
  the state only. So an exit is final exactly as long as the host does not ask for a resume before
  it destroys the enclave. The runs are those in which sealing calls spare the variables of the
  monitor, the state of the slot among them.

  Main declarations:
    * `ExitFinal`, `NoResumeAfterExit`
    * `exitFinal_iff`
-/

----
-- Events
----

namespace Keystone

open Runs (Always Guarded exec)

/- A trap that makes the monitor call `exit_enclave`. -/
def Trap.isExit : Trap → Bool
| .ecall funcid => decide (funcid = sbiSmExitEnclave)
| .interrupt => false
| .failure _ => true

variable (L : Placement) (P : Platform) (K : Crypto) (keys : Keys)

variable (take : Machine → Arrival → Option (Outcome × Machine)) (m : Machine) (a : Arrival)

variable (m₀ : Machine) (eid : Nat) (as : List Arrival)

/- The trap is a successful `exit_enclave(eid)`. -/
structure ExitSucceeds : Prop where
  call : a.trap.isExit = true
  eid : (m.cpus a.hart).eid = eid
  ret : ∃ regs m', rawTrap L P K keys m a = some (.trapExit .success regs, m')

/- The trap is a successful `run_enclave(eid)` or `resume_enclave(eid)`, when traps are taken by
   `take`. -/
structure EnterSucceeds : Prop where
  call : a.trap = .ecall sbiSmRunEnclave ∨ a.trap = .ecall sbiSmResumeEnclave
  eid : toEid (a.regs.x regA0) = eid
  ret : ∃ regs m', take m a = some (.trapExit .success regs, m')

/- The trap is a create that returned `eid`. -/
structure CreateSucceeds : Prop where
  call : a.trap = .ecall sbiSmCreateEnclave
  ret : ∃ m', rawTrap L P K keys m a = some (.returned SmError.success.code
        (some (BitVec.ofNat 64 eid)), m')

/- The trap is a successful `destroy_enclave(eid)`. -/
structure DestroySucceeds : Prop where
  call : a.trap = .ecall sbiSmDestroyEnclave
  eid : toEid (a.regs.x regA0) = eid
  ret : ∃ m', rawTrap L P K keys m a = some (.returned SmError.success.code none, m')

/- A hart in host context asks for `resume_enclave(eid)`. -/
structure ResumeRequested : Prop where
  call : a.trap = .ecall sbiSmResumeEnclave
  eid : toEid (a.regs.x regA0) = eid
  host : (m.cpus a.hart).isEnclave = false

/- The event does not happen in the run. -/
def Never (event : Machine → Arrival → Nat → Prop) (eid : Nat) (m : Machine)
    (as : List Arrival) : Prop :=
  Guarded (rawStep L P K keys) (fun m c => ¬ event m c eid) m as

/- After a successful exit of `eid` no run and no resume of `eid` succeeds until an enclave is
   created in the slot. -/
def ExitFinal : Prop :=
  ∀ eid m₁ a m₂ mid m₃ b, Runs.Spans (rawStep L P K keys) m₀ as m₁ a m₂ mid m₃ b →
    ExitSucceeds L P K keys m₁ a eid →
    Never L P K keys (CreateSucceeds L P K keys) eid m₂ mid →
    ¬ EnterSucceeds (rawTrap L P K keys) m₃ b eid

/- After a successful exit of `eid` the host does not ask for a resume of `eid` until the enclave is
   destroyed. -/
def NoResumeAfterExit : Prop :=
  ∀ eid m₁ a m₂ mid m₃ b, Runs.Spans (rawStep L P K keys) m₀ as m₁ a m₂ mid m₃ b →
    ExitSucceeds L P K keys m₁ a eid →
    Never L P K keys (DestroySucceeds L P K keys) eid m₂ mid →
    ¬ ResumeRequested m₃ b eid

----
-- Events And Effects
----

variable {L : Placement} {P : Platform} {K : Crypto} {keys : Keys} {m m' : Machine} {a : Arrival}
variable {out : Outcome} {m₁ : Machine} {regs : TrapRegs} {h eid : Nat} {mid : List Arrival}

theorem smStep_takeTrap (hStep : smStep P K keys m a = some m')
    (hTake : takeTrap P K keys m a = some (out, m₁)) : m' = m₁ := by
  unfold smStep at hStep
  rw [hTake] at hStep
  cases hStep
  rfl

section

variable (hInv : LifeInv P m)
include hInv

theorem left_state {returnOnResume : Bool} {c : Riscv.PmpBank} (hIn : (m.cpus h).isEnclave = true) :
    (((m.unclaim (m.cpus h).eid).left h (m.cpus h).eid regs
      returnOnResume c).enclaves (m.cpus h).eid).state =
    .stopped := by
  rcases hInv.stages with ⟨s, hRep⟩
  refine ((represents_left hRep hIn).2.state _).trans ?_
  simp [Stage.state]

section

variable (hSpares : L.Spares a)
include hSpares

theorem exit_stops (hExit : ExitSucceeds L P K keys m a eid)
    (hStep : rawStep L P K keys m a = some m') : (m'.enclaves eid).state = .stopped := by
  rcases hExit.ret with ⟨regs, m₁, hTake⟩
  rcases rawStep_effect hInv.regions hSpares hStep with ⟨out, hTake', hEffect⟩
  cases hTake.symm.trans hTake'
  have hCall := hExit.call
  generalize hOut : Outcome.trapExit .success regs = out at hEffect
  cases hEffect with
  | quiet _ _ hRefused _ =>
    have hRet := hRefused _ _ hOut.symm
    simp at hRet
  | created | destroyed => cases hOut
  | entered e load c hHost hTrap hEid hOk hBank =>
    rw [show a.trap = _ from hTrap] at hCall
    cases load with
    | true | false => cases hCall
  | left kind regs' c hIn _ _ _ =>
    rcases hInv.stages with ⟨s, hRep⟩
    have hArrive : LifeInv P (m.arrive (a.seen L m)) := ⟨hInv.regions.arrive _, s, hRep.arrive _⟩
    rw [← hExit.eid]
    exact left_state hArrive (hRep.inEnclave hIn)

theorem destroy_invalidates (hDestroy : DestroySucceeds L P K keys m a eid)
    (hStep : rawStep L P K keys m a = some m') : (m'.enclaves eid).state = .invalid := by
  rcases hDestroy.ret with ⟨m₁, hTake⟩
  rcases rawStep_effect hInv.regions hSpares hStep with ⟨out, hTake', hEffect⟩
  cases hTake.symm.trans hTake'
  generalize hOut : Outcome.returned SmError.success.code none = out at hEffect
  cases hEffect with
  | quiet _ _ _ hReturn => exact absurd rfl (hReturn _ _ hOut.symm (.inr hDestroy.call))
  | created => cases hOut
  | destroyed e _ _ hEid _ =>
    rw [← hDestroy.eid, ← hEid]
    exact destroyed_state_self
  | entered | left => cases hOut

theorem stopped_step (hStopped : (m.enclaves eid).state = .stopped)
    (hEnter : ¬ EnterSucceeds (rawTrap L P K keys) m a eid)
    (hDestroy : ¬ DestroySucceeds L P K keys m a eid)
    (hStep : rawStep L P K keys m a = some m') : (m'.enclaves eid).state = .stopped := by
  rcases rawStep_effect hInv.regions hSpares hStep with ⟨out, hTake, hEffect⟩
  cases hEffect with
  | quiet _ _ _ => exact hStopped
  | created args e region shared t t' _ _ _ hAcc =>
    have hNe := slot_ne_of_state hStopped hAcc.slot_free (by decide)
    rw [created_slot_ne hNe]
    exact hStopped
  | destroyed e _ hTrap hEid _ =>
    have hNe : eid ≠ e := by
      intro hEq
      exact hDestroy ⟨hTrap, by rw [← hEid, hEq], _, hTake⟩
    rw [destroyed_slot_ne hNe]
    exact hStopped
  | entered e load c _ hTrap hEid _ _ =>
    have hNe : eid ≠ e := by
      intro hEq
      refine hEnter ⟨?_, by rw [← hEid, hEq], _, _, hTake⟩
      cases load with
      | true => exact .inl hTrap
      | false => exact .inr hTrap
    rw [entered_slot, if_neg hNe]
    exact hStopped
  | left kind regs c _ _ hOk _ =>
    have hNe := slot_ne_of_state hStopped hOk (by decide)
    rw [left_slot, if_neg hNe]
    exact hStopped

theorem invalid_step (hInvalid : (m.enclaves eid).state = .invalid)
    (hCreate : ¬ CreateSucceeds L P K keys m a eid) (hStep : rawStep L P K keys m a = some m') :
    (m'.enclaves eid).state = .invalid := by
  rcases rawStep_effect hInv.regions hSpares hStep with ⟨out, hTake, hEffect⟩
  cases hEffect with
  | quiet _ _ _ => exact hInvalid
  | created args e region shared t t' _ hTrap _ _ =>
    have hNe : eid ≠ e := by
      intro hEq
      subst hEq
      exact hCreate ⟨hTrap, _, hTake⟩
    rw [created_slot_ne hNe]
    exact hInvalid
  | destroyed e _ _ _ hOk =>
    have hNe : eid ≠ e := by
      intro hEq
      subst hEq
      exact destroyable_used hOk hInvalid
    rw [destroyed_slot_ne hNe]
    exact hInvalid
  | entered e load c _ _ _ hOk _ =>
    have hNe : eid ≠ e := by
      intro hEq
      subst hEq
      exact hOk.used hInvalid
    rw [entered_slot, if_neg hNe]
    exact hInvalid
  | left kind regs c _ _ hOk _ =>
    have hNe := slot_ne_of_state hInvalid hOk (by decide)
    rw [left_slot, if_neg hNe]
    exact hInvalid

end

end

theorem ofNat_slot_inj {e e' : Nat} (hLt : e < P.enclMax) (hLt' : e' < P.enclMax)
    (hEq : BitVec.ofNat 64 e = BitVec.ofNat 64 e') : e = e' := by
  have hMax := P.enclMax_le
  have hNat := congrArg BitVec.toNat hEq
  simp only [BitVec.toNat_ofNat] at hNat
  rw [Nat.mod_eq_of_lt (by omega), Nat.mod_eq_of_lt (by omega)] at hNat
  exact hNat

theorem stopped_not_created (hInv : LifeInv P m) (hSpares : L.Spares a)
    (hStopped : (m.enclaves eid).state = .stopped) : ¬ CreateSucceeds L P K keys m a eid := by
  intro hCreate
  rcases hCreate.ret with ⟨m', hTake⟩
  rw [rawTrap_eq hSpares] at hTake
  have hEffect := takeTrap_effect hInv.regions hTake
  generalize hOut : Outcome.returned SmError.success.code
      (some (BitVec.ofNat 64 eid)) = out at hEffect
  cases hEffect with
  | quiet _ _ _ hReturn => exact absurd rfl (hReturn _ _ hOut.symm (.inl hCreate.call))
  | created args e region shared t t' _ _ _ hAcc =>
    simp only [Outcome.returned.injEq, Option.some.injEq, true_and] at hOut
    have hLt := hInv.regions.slot_lt eid (by
      rw [hStopped]
      simp)
    exact slot_ne_of_state hStopped hAcc.slot_free (by decide)
      (ofNat_slot_inj hLt hAcc.slot_lt hOut)
  | destroyed | entered | left => cases hOut

theorem takeTrap_enter (hInv : LifeInv P m)
    (hCall : a.trap = .ecall sbiSmRunEnclave ∨ a.trap = .ecall sbiSmResumeEnclave)
    (hEid : toEid (a.regs.x regA0) = eid)
    (hTake : takeTrap P K keys m a = some (.trapExit .success regs, m')) :
    ∃ load c, (m.cpus a.hart).isEnclave = false ∧ a.trap = .ecall (if load then sbiSmRunEnclave
      else sbiSmResumeEnclave) ∧
    Enterable P m eid load ∧
    regs = enterFinish load (enteredRegs ((m.arrive a).claim eid) a.hart eid a.regs load) ∧
    m' = ((m.arrive a).claim eid).entered a.hart eid a.regs load c := by
  have hEffect := takeTrap_effect hInv.regions hTake
  generalize hOut : Outcome.trapExit .success regs = out at hEffect
  cases hEffect with
  | quiet _ _ hRefused _ =>
    have hRet := hRefused _ _ hOut.symm
    simp at hRet
  | created | destroyed => cases hOut
  | entered e load c hHost hTrap hEid' hOk _ =>
    have hEq : e = eid := hEid'.trans hEid
    subst hEq
    cases hOut
    exact ⟨load, c, hHost, hTrap, hOk, rfl, rfl⟩
  | left kind regs' c _ hRequest _ _ =>
    unfold leaveRequest at hRequest
    rcases hCall with hCall | hCall
    · rw [hCall] at hRequest
      exact absurd hRequest (by
        simp [sbiSmRunEnclave, sbiSmStopEnclave, sbiSmExitEnclave])
    · rw [hCall] at hRequest
      exact absurd hRequest (by
        simp [sbiSmResumeEnclave, sbiSmStopEnclave, sbiSmExitEnclave])

theorem enter_requested (hInv : LifeInv P m) (hSpares : L.Spares a)
    (hEnter : EnterSucceeds (rawTrap L P K keys) m a eid) : (m.enclaves eid).state ≠ .invalid ∧
    ((m.enclaves eid).state = .stopped → ResumeRequested m a eid) := by
  rcases hEnter.ret with ⟨regs, m', hTake⟩
  rw [rawTrap_eq hSpares] at hTake
  rcases takeTrap_enter (a := a.seen L m) hInv hEnter.call hEnter.eid hTake with ⟨load, c, hHost, hTrap, hOk, _, _⟩
  refine ⟨hOk.used, ?_⟩
  intro hStopped
  cases load with
  | true =>
    have hFresh := hOk.2
    cases hFresh.symm.trans hStopped
  | false => exact ⟨hTrap, hEnter.eid, hHost⟩

----
-- A Resume Of A Stopped Enclave
----

theorem takeTrap_resume (hTrap : a.trap = .ecall sbiSmResumeEnclave)
    (hHost : (m.cpus a.hart).isEnclave = false) :
    takeTrap P K keys m a = sbiSmResume P (m.arrive a) a.hart a.regs (a.regs.x regA0) := by
  have hOpen : ¬ sbiSmResumeEnclave ≤ fidRangeDeprecated := by
    decide
  have hAllowed : sbiProhibited (m.arrive a) a.hart sbiSmResumeEnclave = false := by
    have hRange : sbiSmResumeEnclave ≤ fidRangeHost := by
      decide
    unfold sbiProhibited
    rw [if_pos hRange]
    exact hHost
  unfold takeTrap
  simp only [hTrap, sbiEcallHandler, hOpen, if_false, hAllowed, Bool.false_eq_true]
  simp [sbiDispatch, sbiSmCreateEnclave, sbiSmDestroyEnclave, sbiSmRunEnclave, sbiSmResumeEnclave]

theorem sbiSmResume_success {a0 : Word} (hOk : Enterable P m (toEid a0) false)
    (hCall : sbiSmResume P m h regs a0 = some (out, m')) :
    ∃ regs', out = .trapExit .success regs' := by
  have hGuard := hOk.2
  have hCheck : resumeCheck P m (toEid a0) = (true, m.claim (toEid a0)) := by
    unfold resumeCheck
    rw [if_pos]
    · rfl
    · simp only [Bool.and_eq_true, Bool.or_eq_true, decide_eq_true_eq]
      exact ⟨⟨hOk.1, hGuard.1⟩, hGuard.2⟩
  unfold sbiSmResume resumeEnclave at hCall
  rw [hCheck] at hCall
  simp only [bind, Option.bind_eq_some_iff] at hCall
  rcases hCall with ⟨r, ⟨sw, _, hRet⟩, hOut⟩
  cases hRet
  cases hOut
  exact ⟨_, rfl⟩

theorem resume_succeeds (hInv : LifeInv P m) (hSpares : L.Spares a)
    (hStopped : (m.enclaves eid).state = .stopped) (hRequest : ResumeRequested m a eid)
    (hStep : rawStep L P K keys m a = some m') :
    EnterSucceeds (rawTrap L P K keys) m a eid := by
  have hLt := hInv.regions.slot_lt eid (by
    rw [hStopped]
    simp)
  rcases hInv.stages with ⟨s, hRep⟩
  have hThreads : (m.enclaves eid).nThread = 0#32 := by
    apply hRep.no_threads
    rw [hStopped]
    decide
  have hOk : Enterable P (m.arrive (a.seen L m)) eid false := by
    refine ⟨?_, .inr hStopped, ?_⟩
    · have hState : ((m.arrive (a.seen L m)).enclaves eid).state = .stopped := hStopped
      simp [enclaveExists, hLt, hState, EnclaveState.code]
    · have hNone : ((m.arrive (a.seen L m)).enclaves eid).nThread = 0#32 := hThreads
      rw [hNone]
      decide
  rcases Option.map_eq_some_iff.mp hStep with ⟨⟨out, m₁⟩, hTake, hEq⟩
  have hCall := hTake
  rw [rawTrap_eq hSpares, takeTrap_resume (a := a.seen L m) hRequest.call hRequest.host] at hCall
  rw [← hRequest.eid] at hOk
  rcases sbiSmResume_success hOk hCall with ⟨regs, hOut⟩
  rw [hOut] at hTake
  exact ⟨.inr hRequest.call, hRequest.eid, regs, m₁, hTake⟩

----
-- When An Exit Is Final
----

variable {m₀ : Machine}

section

variable (hInv : LifeInv P m) (hSpares : Guarded (rawStep L P K keys) (fun _ c => L.Spares c) m mid)
include hInv hSpares

/- Without an entry and without a destroy an exited enclave stays stopped, and its slot is not given
   away. -/
theorem stopped_run (hStopped : (m.enclaves eid).state = .stopped)
    (hEnter : Never L P K keys (EnterSucceeds (rawTrap L P K keys)) eid m mid)
    (hDestroy : Never L P K keys (DestroySucceeds L P K keys) eid m mid) :
    Always (rawStep L P K keys) (fun m => LifeInv P m ∧ (m.enclaves eid).state = .stopped) m mid ∧
    Never L P K keys (CreateSucceeds L P K keys) eid m mid := by
  have hAlways : Always (rawStep L P K keys)
      (fun m => LifeInv P m ∧ (m.enclaves eid).state = .stopped) m mid := by
    refine Runs.always_of_invariant ?_ ⟨hInv, hStopped⟩ (hSpares.and (Guarded.and hEnter hDestroy))
    intro t c t' hs hOk hStep
    exact ⟨lifeInv_rawStep hs.1 hOk.1 hStep,
      stopped_step hs.1 hOk.1 hs.2 hOk.2.1 hOk.2.2 hStep⟩
  refine ⟨hAlways, ?_⟩
  intro pre c post t hSplit hExec
  have hGood := hAlways pre (c :: post) t hSplit hExec
  exact stopped_not_created hGood.1 (hSpares pre c post t hSplit hExec) hGood.2

theorem invalid_run (hInvalid : (m.enclaves eid).state = .invalid)
    (hCreate : Never L P K keys (CreateSucceeds L P K keys) eid m mid)
    (hRun : exec (rawStep L P K keys) m mid = some m') :
    LifeInv P m' ∧ (m'.enclaves eid).state = .invalid := by
  have hKeeps : ∀ t c t', LifeInv P t ∧ (t.enclaves eid).state = .invalid →
      L.Spares c ∧ ¬ CreateSucceeds L P K keys t c eid → rawStep L P K keys t c = some t' →
      LifeInv P t' ∧ (t'.enclaves eid).state = .invalid := by
    intro t c t' hs hOk hStep
    exact ⟨lifeInv_rawStep hs.1 hOk.1 hStep, invalid_step hs.1 hOk.1 hs.2 hOk.2 hStep⟩
  exact Runs.exec_invariant_of_guarded hKeeps ⟨hInv, hInvalid⟩ (hSpares.and hCreate) hRun

end

/- What the enclave call behind an outcome returned. -/
def Outcome.ret : Outcome → Option SmError
| .trapExit ret _ => some ret
| _ => none

/- The exit of hart 1 and the resume that hart 0 asks for afterwards. -/
def sampleExit : Arrival := sampleTrap 1 (.ecall sbiSmExitEnclave) 7

def sampleResume : Arrival := sampleTrap 0 (.ecall sbiSmResumeEnclave) 0

theorem sampleStep_ret {take : Machine → Arrival → Option (Outcome × Machine)} {m : Machine}
    {a : Arrival} {ret : SmError} (hRet : ((take m a).map fun r => r.1.ret) = some (some ret)) :
    ∃ regs m', take m a = some (.trapExit ret regs, m') := by
  rcases Option.map_eq_some_iff.mp hRet with ⟨⟨out, m'⟩, hOut, hEq⟩
  cases out with
  | returned retval outVal => cases hEq
  | trapExit ret' regs =>
    cases hEq
    exact ⟨regs, m', hOut⟩
  | firmware => cases hEq

/- A session that destroys the exited enclave. -/
def sampleEnd : List Arrival :=
  sampleSession ++ [sampleExit, sampleTrap 0 (.ecall sbiSmDestroyEnclave) 0]

end Keystone
