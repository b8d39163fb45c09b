import Keystone.Sm.Interleaving.Model
import Keystone.Sm.Lifecycle

/-
  Calls that are not interrupted.

  The steps of one call are the parts of the atomic function, in its order. When the harts take
  turns, calls do in the interleaved system what they do in the atomic monitor.
-/

----
-- Uninterrupted Calls
----

namespace Keystone

open Function (update)
open Option (bind_eq_some_iff)

/- The steps of one hart from a call to its end, with no other hart in between. -/
inductive Completes (P : Platform) (K : Crypto) (h : Nat) :
    Machine → Call → Outcome → Machine → Prop where
| returns {m m' : Machine} {c : Call} {out : Outcome}
    (hLast : advance P K m h c = some (.returns out, m')) :
    Completes P K h m c out m'
| goesTo {m n m' : Machine} {c d : Call} {out : Outcome}
    (hNext : advance P K m h c = some (.goesTo d, n)) (hRest : Completes P K h n d out m') :
    Completes P K h m c out m'

variable {P : Platform} {K : Crypto} {keys : Keys} {m m' : Machine} {h : Nat}

variable {out : Outcome} {eid : Nat} {r : CreateRet} {ret : SmError}

theorem Completes.exec {c : Call} (hCompletes : Completes P K h m c out m') (calls : Nat → Call)
    (hCall : calls h = c) :
    ∃ k, Runs.exec (System.step P K) ⟨m, calls⟩ (List.replicate k (.advance h)) =
    some ⟨m', update calls h .idle⟩ := by
  induction hCompletes generalizing calls with
  | returns hLast =>
    refine ⟨1, ?_⟩
    apply (Runs.exec_singleton_iff _).mpr
    simp [System.step, hCall, hLast, Progress.call]
  | @goesTo m n m' c d out hNext hRest ih =>
    rcases ih (update calls h d) (Function.update_self _ _ _) with ⟨k, hExec⟩
    rw [Function.update_idem] at hExec
    refine ⟨k + 1, ?_⟩
    apply (Runs.exec_cons_iff _).mpr
    refine ⟨⟨n, update calls h d⟩, ?_, hExec⟩
    simp [System.step, hCall, hNext, Progress.call]

theorem create_completes {args : CreateArgs} (hCreate : createEnclave P K m h args = some r) :
    Completes P K h m (.createAlloc args)
    (.returned r.ret.code (r.eid.map (BitVec.ofNat 64))) r.machine := by
  unfold createEnclave at hCreate
  by_cases hArgs : isCreateArgsValid args = true
  · rcases hAlloc : enclAllocEid P m with ⟨slot, m₁⟩
    simp only [hArgs, hAlloc] at hCreate
    cases slot with
    | none =>
      cases hCreate
      exact .returns (by simp [advance, hArgs, hAlloc, Progress.fails])
    | some eid =>
      rcases bind_eq_some_iff.mp hCreate with ⟨epm, hEpm, hCreate⟩
      refine .goesTo (d := .createEpm args eid) (by simp [advance, hArgs, hAlloc]; rfl) ?_
      by_cases hRet : epm.ret = .success
      · simp only [hRet, ne_eq, not_true, if_false] at hCreate
        rcases bind_eq_some_iff.mp hCreate with ⟨region, hRegion, hCreate⟩
        rcases bind_eq_some_iff.mp hCreate with ⟨utm, hUtm, hCreate⟩
        refine .goesTo (d := .createUtm args eid region)
          (by simp [advance, hEpm, hRet, hRegion]; rfl) ?_
        by_cases hRet' : utm.ret = .success
        · simp only [hRet', not_true, if_false] at hCreate
          rcases bind_eq_some_iff.mp hCreate with ⟨shared, hShared, hCreate⟩
          rcases bind_eq_some_iff.mp hCreate with ⟨⟨setup, m₂⟩, hSetup, hCreate⟩
          refine .goesTo (d := .createSetup args eid region shared)
            (by simp [advance, hUtm, hRet', hShared]; rfl) ?_
          by_cases hOk : setup = .success
          · simp only [hOk, not_true, if_false, platformCreateEnclave, createFinish,
              validateAndHashEnclave] at hCreate
            cases hCreate
            exact .goesTo (d := .createPublish eid region shared)
              (by simp [advance, hSetup, hOk, platformCreateEnclave]) (.returns rfl)
          · simp only [hOk, not_false_eq_true, if_true] at hCreate
            cases hCreate
            exact .goesTo (by simp [advance, hSetup, hOk]; exact ⟨rfl, rfl⟩)
              (.goesTo rfl (.goesTo rfl (.returns rfl)))
        · simp only [hRet', not_false_eq_true, if_true] at hCreate
          cases hCreate
          exact .goesTo (by simp [advance, hUtm, hRet']; exact ⟨rfl, rfl⟩)
            (.goesTo rfl (.returns rfl))
      · simp only [hRet, ne_eq, not_false_eq_true, if_true] at hCreate
        cases hCreate
        exact .goesTo (by simp [advance, hEpm, hRet]; exact ⟨rfl, rfl⟩) (.returns rfl)
  · simp only [hArgs, Bool.not_false, if_true] at hCreate
    cases hCreate
    exact .returns (by simp [advance, hArgs, Progress.fails])

theorem destroyRegion_completes {i : Nat} {n : Machine} (hLt : i < P.enclaveRegionsMax)
    (hRegion : destroyRegion P m eid i = some n)
    (hRest : Completes P K h n (.destroyClear eid (i + 1)) out m') :
    Completes P K h m (.destroyClear eid i) out m' := by
  unfold destroyRegion at hRegion
  by_cases hSkip : ((m.enclaves eid).regions i).type = .invalid ∨
        ((m.enclaves eid).regions i).type = .utm
  · simp only [if_pos hSkip] at hRegion
    cases hRegion
    refine .goesTo ?_ hRest
    simp only [advance, if_pos hLt, if_pos hSkip]
  · simp only [if_neg hSkip] at hRegion
    rcases bind_eq_some_iff.mp hRegion with ⟨⟨err, m₁⟩, hUnset, hEq⟩
    cases hEq
    refine .goesTo (n := m₁) (d := .destroyFree eid i ((m.enclaves eid).regions i).pmpRid) ?_
      (.goesTo rfl hRest)
    simp only [advance, if_pos hLt, if_neg hSkip, hUnset, bind, Option.bind_some]
    rfl

theorem destroyRounds_completes {i k : Nat} {n : Machine} (hBound : i + k = P.enclaveRegionsMax)
    (hLoop : (List.range' i k).foldlM (fun m i => destroyRegion P m eid i) m = some n)
    (hRest : Completes P K h n (.destroyFreeUtm eid) out m') :
    Completes P K h m (.destroyClear eid i) out m' := by
  induction k generalizing m i with
  | zero =>
    cases hLoop
    refine .goesTo ?_ hRest
    simp only [advance]
    rw [if_neg (by omega)]
  | succ k ih =>
    rcases bind_eq_some_iff.mp hLoop with ⟨m₁, hRegion, hLoop⟩
    exact destroyRegion_completes (by omega) hRegion (ih (by omega) hLoop)

theorem destroy_completes (hDestroy : destroyEnclave P m eid = some (ret, m')) :
    Completes P K h m (.destroyCheck eid) (.returned ret.code none) m' := by
  unfold destroyEnclave at hDestroy
  rcases hCheck : destroyCheck P m eid with ⟨ok, m₁⟩
  rw [hCheck] at hDestroy
  cases ok with
  | false =>
    cases hDestroy
    refine .returns ?_
    simp [advance, hCheck, Progress.fails]
  | true =>
    rcases bind_eq_some_iff.mp hDestroy with ⟨m₂, hLoop, hEq⟩
    cases hEq
    rw [List.range_eq_range'] at hLoop
    refine .goesTo (n := m₁.setEnclave eid (platformDestroyEnclave (m₁.enclaves eid)))
      (d := .destroyClear eid 0)
      (by simp only [advance, hCheck]) ?_
    refine destroyRounds_completes (by omega) hLoop ?_
    exact .goesTo rfl (.goesTo rfl (.returns rfl))

theorem enter_completes (eid : Nat) (load : Bool) {regs regs' : TrapRegs}
    (hEnter : (match enterSection P m eid load with
        | (false, m) => some (enterError load, regs, m)
        | (true, m) => do
            let (regs, m) ← contextSwitchToEnclave P m h regs eid load
            return (SmError.success, regs, m)) =
        some (ret, regs', m')) : Completes P K h m (.enterCheck eid load regs)
      (.trapExit ret (enterReturn load ret regs')) m' := by
  rcases hCheck : enterSection P m eid load with ⟨ok, m₁⟩
  rw [hCheck] at hEnter
  cases ok with
  | false =>
    cases hEnter
    refine .returns ?_
    simp only [advance, hCheck]
  | true =>
    rcases bind_eq_some_iff.mp hEnter with ⟨⟨regs₁, m₂⟩, hSwitch, hEq⟩
    cases hEq
    refine .goesTo (n := m₁) (d := .enterSwitch eid load regs)
      (by simp only [advance, hCheck]) (.returns ?_)
    simp [advance, hSwitch]

theorem leave_completes (kind : LeaveKind) {regs regs' : TrapRegs}
    (hLeave : (match leaveCheck m (m.cpus h).eid with
        | (false, m) => some (SmError.notRunning, regs, m)
        | (true, m₁) => do
            let (regs, m) ← contextSwitchToHost P m₁ h regs (m.cpus h).eid kind.returnOnResume
            return (kind.ret, regs, m)) =
        some (ret, regs', m')) :
    Completes P K h m (.leaveCheck kind regs) (.trapExit ret (leaveReturn kind ret regs')) m' := by
  rcases hCheck : leaveCheck m (m.cpus h).eid with ⟨ok, m₁⟩
  rw [hCheck] at hLeave
  cases ok with
  | false =>
    cases hLeave
    refine .returns ?_
    simp only [advance, hCheck]
  | true =>
    rcases bind_eq_some_iff.mp hLeave with ⟨⟨regs₁, m₂⟩, hSwitch, hEq⟩
    cases hEq
    have hCpus : m₁.cpus = m.cpus := by
      unfold leaveCheck at hCheck
      split at hCheck
      · cases hCheck
        rfl
      · cases hCheck
    refine .goesTo (n := m₁) (d := .leaveSwitch (m.cpus h).eid kind regs)
      (by simp only [advance, hCheck, hCpus]) (.returns ?_)
    simp [advance, hSwitch]

/- The branches of the dispatcher that start a call. -/
theorem sbiDispatch_completes {a : Arrival} {funcid : Word} (hCall : sbiCall a funcid ≠ .idle)
    (hTake : sbiDispatch P K keys a.env m a.hart funcid a.regs = some (out, m')) :
    Completes P K a.hart m (sbiCall a funcid) out m' := by
  unfold sbiDispatch at hTake
  unfold sbiCall at hCall ⊢
  by_cases hCreate : funcid = sbiSmCreateEnclave
  · simp only [if_pos hCreate] at hTake hCall ⊢
    unfold sbiSmCreate at hTake
    cases hArgs : a.env.createArgs with
    | none =>
      simp only [hArgs] at hCall
      exact absurd rfl hCall
    | some args =>
      simp only [hArgs] at hTake ⊢
      rcases bind_eq_some_iff.mp hTake with ⟨r, hRet, hEq⟩
      cases hEq
      exact create_completes hRet
  simp only [if_neg hCreate] at hTake hCall ⊢
  by_cases hDestroy : funcid = sbiSmDestroyEnclave
  · simp only [if_pos hDestroy] at hTake ⊢
    rcases bind_eq_some_iff.mp hTake with ⟨⟨ret, m₁⟩, hRet, hEq⟩
    cases hEq
    exact destroy_completes hRet
  simp only [if_neg hDestroy] at hTake hCall ⊢
  by_cases hRun : funcid = sbiSmRunEnclave
  · simp only [if_pos hRun] at hTake ⊢
    rcases bind_eq_some_iff.mp hTake with ⟨⟨ret, regs, m₁⟩, hRet, hEq⟩
    cases hEq
    exact enter_completes _ true hRet
  simp only [if_neg hRun] at hTake hCall ⊢
  by_cases hResume : funcid = sbiSmResumeEnclave
  · simp only [if_pos hResume] at hTake ⊢
    rcases bind_eq_some_iff.mp hTake with ⟨⟨ret, regs, m₁⟩, hRet, hEq⟩
    cases hEq
    exact enter_completes _ false hRet
  simp only [if_neg hResume] at hTake hCall ⊢
  by_cases hStop : funcid = sbiSmStopEnclave
  · simp only [if_pos hStop] at hTake ⊢
    simp only [hStop, sbiSmRandom, sbiSmAttestEnclave,
      sbiSmGetSealingKey, sbiSmStopEnclave] at hTake
    rcases bind_eq_some_iff.mp hTake with ⟨⟨ret, regs, m₁⟩, hRet, hEq⟩
    cases hEq
    exact leave_completes (.stop (a.regs.x regA0)) hRet
  simp only [if_neg hStop] at hTake hCall ⊢
  by_cases hExit : funcid = sbiSmExitEnclave
  · simp only [if_pos hExit] at hTake ⊢
    simp only [hExit, sbiSmRandom, sbiSmAttestEnclave,
      sbiSmGetSealingKey, sbiSmExitEnclave] at hTake
    rcases bind_eq_some_iff.mp hTake with ⟨⟨ret, regs, m₁⟩, hRet, hEq⟩
    cases hEq
    exact leave_completes (.exit (a.regs.x regA0)) hRet
  · simp only [if_neg hExit] at hCall
    exact absurd rfl hCall

/- A trap that starts an enclave call and is served without an interruption does what the atomic
   step does. -/
theorem takeTrap_completes {a : Arrival} (hCall : dispatch (m.arrive a) a ≠ .idle)
    (hTake : takeTrap P K keys m a = some (out, m')) :
    Completes P K a.hart (m.arrive a) (dispatch (m.arrive a) a) out m' := by
  unfold takeTrap at hTake
  unfold dispatch at hCall ⊢
  cases hTrap : a.trap with
  | ecall funcid =>
    simp only [hTrap] at hTake hCall ⊢
    unfold sbiEcallHandler at hTake
    by_cases hOld : funcid ≤ fidRangeDeprecated
    · simp only [if_pos hOld] at hCall
      exact absurd rfl hCall
    by_cases hBad : sbiProhibited (m.arrive a) a.hart funcid = true
    · simp only [if_neg hOld, if_pos hBad] at hCall
      exact absurd rfl hCall
    simp only [if_neg hOld, if_neg hBad] at hTake hCall ⊢
    exact sbiDispatch_completes hCall hTake
  | interrupt =>
    simp only [hTrap] at hTake hCall ⊢
    by_cases hVector : ((m.arrive a).harts a.hart).mtvec = .enclave
    · simp only [if_pos hVector] at hTake ⊢
      rcases bind_eq_some_iff.mp hTake with ⟨⟨ret, regs, m₁⟩, hStop, hEq⟩
      cases hEq
      exact leave_completes (.stop stopTimerInterrupt) hStop
    · simp only [if_neg hVector] at hCall
      exact absurd rfl hCall
  | failure rc =>
    simp only [hTrap] at hTake hCall ⊢
    by_cases hVector : ((m.arrive a).harts a.hart).mtvec = .enclave
    · simp only [if_pos hVector] at hTake ⊢
      rcases bind_eq_some_iff.mp hTake with ⟨⟨ret, regs, m₁⟩, hExit, hEq⟩
      cases hEq
      exact leave_completes (.exit rc) hExit
    · simp only [if_neg hVector] at hCall
      exact absurd rfl hCall

/- The trap that an event takes. -/
def Event.arrival : Event → Option Arrival
| .start a => some a
| .advance _ => none

/- Calls that are made one after the other. The interleaved system has every run of the atomic
   monitor whose traps start enclave calls, with the same traps in the same order. -/
theorem serial_calls {as : List Arrival} (hRun : Runs.exec (smStep P K keys) m as = some m')
    (hCalls : Runs.Guarded (smStep P K keys) (fun m a => dispatch (m.arrive a) a ≠ .idle) m as) :
    ∃ events, events.filterMap Event.arrival = as ∧
    Runs.exec (System.step P K) (.quiet m) events = some (.quiet m') := by
  induction as generalizing m with
  | nil =>
    cases hRun
    exact ⟨[], rfl, rfl⟩
  | cons a as ih =>
    rcases (Runs.exec_cons_iff _).mp hRun with ⟨n, hStep, hRest⟩
    rcases Option.map_eq_some_iff.mp hStep with ⟨⟨out, n'⟩, hTake, rfl⟩
    rcases ih hRest (hCalls.tail hStep) with ⟨events, hTraps, hEvents⟩
    rcases (takeTrap_completes hCalls.head hTake).exec (update (fun _ => .idle) a.hart _)
      (Function.update_self _ _ _) with ⟨k, hExec⟩
    rw [Function.update_idem, Function.update_eq_self_iff.mpr rfl] at hExec
    refine ⟨.start a :: (List.replicate k (.advance a.hart) ++ events), ?_, ?_⟩
    · simp [List.filterMap_append, Event.arrival, hTraps]
    · apply (Runs.exec_cons_iff _).mpr
      exact ⟨_, rfl, (Runs.exec_append_iff _).mpr ⟨_, hExec, hEvents⟩⟩

/- A create and a run. -/
theorem serial_calls_sampleSession : ∃ m₀ m events, sampleInit = some m₀ ∧
    Runs.exec sampleStep m₀ sampleSession = some m ∧
    events.filterMap Event.arrival = sampleSession ∧
    Runs.exec (System.step .generic sampleCrypto) (.quiet m₀) events = some (.quiet m) := by
  rcases sampleSession_runs with ⟨m₀, m, _, hInit, hExec⟩
  rcases smInit_cases hInit with ⟨_, _, _, _, hCpus, _⟩
  have hHost : (sampleRun [createTrap]).map (fun m => (m.cpus 1).isEnclave) = some false := by
    decide +kernel
  have hCalls : Runs.Guarded sampleStep
      (fun m a => dispatch (m.arrive a) a ≠ .idle) m₀
      sampleSession := by
    refine Runs.guarded_cons_iff.mpr ⟨?_, ?_⟩
    · change (if (m₀.cpus 0).isEnclave = true then Call.idle else .createAlloc sampleArgs) ≠ .idle
      rw [hCpus 0]
      simp
    · intro m₁ hStep
      rw [sampleRun_from hInit, (Runs.exec_singleton_iff _).mpr hStep] at hHost
      refine Runs.guarded_cons_iff.mpr ⟨?_, fun _ _ => Runs.guarded_nil _ _⟩
      change (if (m₁.cpus 1).isEnclave = true then Call.idle else .enterCheck 0 true (sampleRegs 0)) ≠
        .idle
      have hOut : (m₁.cpus 1).isEnclave = false := Option.some.inj hHost
      simp [hOut]
  rcases serial_calls hExec hCalls with ⟨events, hEvents⟩
  exact ⟨m₀, m, events, hInit, hExec, hEvents⟩

end Keystone
