import Keystone.Driver.Liveness

/-
  Enclaves that were created and never finalized.

  `create_enclave` marks a new object with the id -1, and the handlers recognize it by
  `enclave->eid < 0`. The field is an `unsigned long`, so the test never holds: a destroy asks the
  monitor to destroy the id -1 and gives up when the monitor refuses, and a run or a resume is
  passed to the monitor.

  Main declarations:
    * `TornDown`
    * `Stuck`
    * `tornDown_iff`
-/

----
-- Teardown
----

namespace Keystone.Driver

variable {s s' : State} {id : Word} {enclave : Nat} {issued : List Word}

/- The user's id belongs to an object on which `FINALIZE` was not called: `create_enclave` sets
   `is_init`, and only `keystone_finalize_enclave` clears it. -/
def Unfinalized (s : State) (id : Word) (enclave : Nat) : Prop :=
  getEnclaveById s (idOf id) = some enclave ∧ (s.enclave enclave).isInit = true

/- The monitor rejects an id that it never issued. -/
def Answers (issued : List Word) (eid : Word) (ret : SbiRet) : Prop := eid ∉ issued → ret.error ≠ 0

/- The handler reports success, the id is free, and the object with its private and shared memory
   was freed. -/
def Removed (s : State) (id : Word) (enclave : Nat) (out : Errno × State) : Prop :=
  out.1 = .ok ∧ getEnclaveById out.2 (idOf id) = none ∧ ∀ i ∈ owned s enclave, ¬ out.2.arena.Live i

/- An object that is not finalized can be destroyed and goes away with its file, and it is not run.
   The monitor is not asked to run it: the handler returns the same whatever the monitor answers,
   and leaves the argument alone. -/
structure TornDown (s : State) (issued : List Word) (id : Word) (enclave : Nat) : Prop where
  destroy : ∀ filep enclp ret, enclp.eid = id → Answers issued (s.enclave enclave).eid ret →
    Removed s id enclave (keystoneDestroyEnclave s filep enclp ret)
  release : ∀ file ret, s.privateData file = id → id ≠ 0 →
    (s.enclave enclave).closeOnPexit = true → Answers issued (s.enclave enclave).eid ret →
    Removed s id enclave (keystoneRelease s file ret)
  run : ∀ arg ret, arg.eid = id → keystoneRunEnclave s arg ret = (.einval, arg, s)
  resume : ∀ arg ret, arg.eid = id → keystoneResumeEnclave s arg ret = (.einval, arg, s)

variable {ret : SbiRet}

/- No unsigned id is below zero: the monitor is asked, and its refusal ends the destroy. -/
theorem destroy_refused {ueid : Nat} (hIdr : getEnclaveById s ueid = some enclave)
    (hRefused : ret.error ≠ 0) : keystoneDestroyEnclaveById s ueid ret = (.einval, s) := by
  have hAsked : 0#64 ≤ (s.enclave enclave).eid := by bv_omega
  simp only [keystoneDestroyEnclaveById, hIdr, if_pos hAsked, if_pos hRefused]

theorem run_passed_on {arg : IoctlRun} (hIdr : getEnclaveById s (idOf arg.eid) = some enclave) :
    keystoneRunEnclave s arg ret = (.ok, { arg with error := ret.error, value := ret.value }, s) := by
  have hAsked : ¬ (s.enclave enclave).eid < 0#64 := BitVec.not_lt_zero
  simp only [keystoneRunEnclave, hIdr, if_neg hAsked]

/- A released file whose enclave the monitor refuses to destroy leaves everything as it is. -/
theorem release_refused {file : Nat} (hFile : s.privateData file ≠ 0)
    (hIdr : getEnclaveById s (idOf (s.privateData file)) = some enclave)
    (hClose : (s.enclave enclave).closeOnPexit = true) (hRefused : ret.error ≠ 0) :
    keystoneRelease s file ret = (.einval, s) := by
  simp only [keystoneRelease, if_neg hFile, hIdr, hClose, if_true, destroy_refused hIdr hRefused]

/- What happens instead, with a monitor that never issued the object's id: the object stays when it
   is destroyed and when its file is released, and it is run and resumed. -/
structure Stuck (s : State) (issued : List Word) (id : Word) (enclave : Nat) : Prop where
  destroy : ∀ filep enclp ret, enclp.eid = id → (s.enclave enclave).eid ∉ issued →
    Answers issued (s.enclave enclave).eid ret →
    keystoneDestroyEnclave s filep enclp ret = (.einval, s)
  release : ∀ file ret, s.privateData file = id → id ≠ 0 →
    (s.enclave enclave).closeOnPexit = true → (s.enclave enclave).eid ∉ issued →
    Answers issued (s.enclave enclave).eid ret → keystoneRelease s file ret = (.einval, s)
  run : ∀ arg ret, arg.eid = id →
    keystoneRunEnclave s arg ret = (.ok, { arg with error := ret.error, value := ret.value }, s)
  resume : ∀ arg ret, arg.eid = id →
    keystoneResumeEnclave s arg ret = (.ok, { arg with error := ret.error, value := ret.value }, s)

/- The handlers do not tell an unfinalized object from another. -/
theorem stuck_of_idr (issued : List Word) (hIdr : getEnclaveById s (idOf id) = some enclave) :
    Stuck s issued id enclave := by
  refine ⟨?_, ?_, ?_, ?_⟩
  · intro filep enclp ret hId hNew hAnswers
    rw [← hId] at hIdr
    rw [keystoneDestroyEnclave, destroy_refused hIdr (hAnswers hNew)]
  · intro file ret hFile hId hClose hNew hAnswers
    rw [← hFile] at hIdr hId
    exact release_refused hId hIdr hClose (hAnswers hNew)
  · intro arg ret hId
    rw [← hId] at hIdr
    exact run_passed_on hIdr
  · intro arg ret hId
    rw [← hId] at hIdr
    exact run_passed_on hIdr

theorem Stuck.not_tornDown (hStuck : Stuck s issued id enclave) : ¬ TornDown s issued id enclave := by
  intro hTorn
  have hRun := hTorn.run ⟨id, 0, 0⟩ ⟨0, 0⟩ rfl
  rw [hStuck.run _ _ rfl] at hRun
  cases congrArg Prod.fst hRun

/- The unfinalized objects of a state can be torn down only if there is none, and none of the four
   commands does for them what it should. -/
theorem tornDown_iff
    (s : State)
    (issued : List Word) :
    ((∀ id enclave, Unfinalized s id enclave → TornDown s issued id enclave) ↔
      ∀ id enclave, getEnclaveById s (idOf id) = some enclave →
        (s.enclave enclave).isInit = false) ∧
    ∀ id enclave, Unfinalized s id enclave → Stuck s issued id enclave := by
  refine ⟨⟨?_, ?_⟩, fun id enclave hOpen => stuck_of_idr issued hOpen.1⟩
  · intro hTorn id enclave hIdr
    by_contra hInit
    have hOpen : Unfinalized s id enclave := ⟨hIdr, by simpa using hInit⟩
    exact (stuck_of_idr issued hIdr).not_tornDown (hTorn id enclave hOpen)
  · rintro hDone id enclave ⟨hIdr, hInit⟩
    rw [hDone id enclave hIdr] at hInit
    cases hInit

/- An enclave is created; a monitor that never issued an id refuses its destroy, on request and
   with the release of the file, and nothing is freed. A run reaches the monitor. -/
theorem unfinalized_leaks : ∃ s, Runs.exec (step plainKernel) initial [createSixteen] = some s ∧
    Unfinalized s 0x1000#64 0 ∧ (s.enclave 0).eid = 0xffffffffffffffff#64 ∧
    keystoneDestroyEnclave s 0 { blankRequest with eid := 0x1000 } ⟨1, 0⟩ = (.einval, s) ∧
    keystoneRelease s 0 ⟨1, 0⟩ = (.einval, s) ∧
    (∀ i ∈ owned s 0, s.arena.frees i = 0) ∧
    (keystoneRunEnclave s ⟨0x1000, 0, 0⟩ ⟨7, 0⟩).1 = .ok ∧
    ¬ TornDown s [] 0x1000#64 0 := by
  have hRefused : (⟨1, 0⟩ : SbiRet).error ≠ 0 := by decide
  refine ⟨_, rfl, ⟨rfl, rfl⟩, rfl, ?_, ?_, by decide, rfl, ?_⟩
  · rw [keystoneDestroyEnclave, destroy_refused rfl hRefused]
  · exact release_refused (by decide) rfl rfl hRefused
  · exact (stuck_of_idr [] rfl).not_tornDown

end Keystone.Driver
