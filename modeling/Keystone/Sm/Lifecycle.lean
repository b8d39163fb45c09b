import Keystone.Sm.RegionSteps

/-
  The lifecycle of enclaves.

  The abstract lifecycle gives each slot a stage; a running enclave sits on one hart. The monitor
  spreads the stage over the state and the thread count of the slot, the context flag and the
  enclave id of the hart, and the trap vector of the hart. Every trap is a step of the abstract
  lifecycle or no step at all.
-/

----
-- The Abstract Lifecycle
----

namespace Keystone

open Function (update)
open Machine (arrive claim created destroyed entered setEnclave setHart setMem)

variable {s : Stage}

/- Where an enclave slot is in its life. -/
inductive Stage where
| absent
| fresh
| running (h : Nat)
| stopped
deriving DecidableEq, Repr

/- The moves of the lifecycle diagram. A hart that enters an enclave is not running one. -/
inductive LifeStep (s : Nat → Stage) : (Nat → Stage) → Prop where
| create (eid : Nat) (hAbsent : s eid = .absent) : LifeStep s (update s eid .fresh)
| enter (eid h : Nat) (hReady : s eid = .fresh ∨ s eid = .stopped) (hIdle : ∀ e, s e ≠ .running h) :
    LifeStep s (update s eid (.running h))
| leave (eid h : Nat) (hRunning : s eid = .running h) : LifeStep s (update s eid .stopped)
| destroy (eid : Nat) (hIdle : s eid = .fresh ∨ s eid = .stopped) :
    LifeStep s (update s eid .absent)

namespace Stage

/- The `state` field of a slot in this stage. -/
def state : Stage → EnclaveState
| .absent => .invalid
| .fresh => .fresh
| .running _ => .running
| .stopped => .stopped

/- The `n_thread` field of a slot in this stage. -/
def threads : Stage → BitVec 32
| .running _ => 1#32
| _ => 0#32

theorem state_eq_invalid (hState : s.state = .invalid) : s = .absent := by
  cases s with
  | absent => rfl
  | fresh | running h | stopped => cases hState

theorem state_eq_fresh (hState : s.state = .fresh) : s = .fresh := by
  cases s with
  | absent => cases hState
  | fresh => rfl
  | running h | stopped => cases hState

theorem state_eq_stopped (hState : s.state = .stopped) : s = .stopped := by
  cases s with
  | absent | fresh | running h => cases hState
  | stopped => rfl

theorem state_eq_running (hState : s.state = .running) : ∃ h, s = .running h := by
  cases s with
  | absent | fresh => cases hState
  | running h => exact ⟨h, rfl⟩
  | stopped => cases hState

theorem threads_eq_one_iff (s : Stage) : s.threads = 1#32 ↔ s.state = .running := by
  cases s <;> simp [threads, state]

end Stage

/- The edges of the lifecycle diagram on the state field. -/
def LifecycleEdge : EnclaveState → EnclaveState → Prop
| .invalid, .fresh => True
| .fresh, .running => True
| .running, .stopped => True
| .stopped, .running => True
| .fresh, .invalid => True
| .stopped, .invalid => True
| _, _ => False

variable {s : Nat → Stage} {h eid : Nat} {a : Arrival}

theorem LifeStep.edge {s' : Nat → Stage} (hStep : LifeStep s s') (eid : Nat) :
    (s' eid).state = (s eid).state ∨ LifecycleEdge (s eid).state (s' eid).state := by
  cases hStep with
  | create e hAbsent =>
    by_cases hEq : eid = e
    · subst hEq
      simp [hAbsent, Stage.state, LifecycleEdge]
    · simp [hEq]
  | enter e h hReady hIdle =>
    by_cases hEq : eid = e
    · subst hEq
      rcases hReady with hReady | hReady
      · simp [hReady, Stage.state, LifecycleEdge]
      · simp [hReady, Stage.state, LifecycleEdge]
    · simp [hEq]
  | leave e h hRunning =>
    by_cases hEq : eid = e
    · subst hEq
      simp [hRunning, Stage.state, LifecycleEdge]
    · simp [hEq]
  | destroy e hIdle =>
    by_cases hEq : eid = e
    · subst hEq
      rcases hIdle with hIdle | hIdle
      · simp [hIdle, Stage.state, LifecycleEdge]
      · simp [hIdle, Stage.state, LifecycleEdge]
    · simp [hEq]

----
-- Representation
----

/- How the monitor keeps the stages. -/
structure Represents (m : Machine) (s : Nat → Stage) : Prop where
  state : ∀ eid, (m.enclaves eid).state = (s eid).state
  threads : ∀ eid, (m.enclaves eid).nThread = (s eid).threads
  home : ∀ eid h, s eid = .running h ↔ m.cpus h = ⟨true, eid⟩
  vector : ∀ h, (m.harts h).mtvec = .enclave ↔ (m.cpus h).isEnclave = true

variable {P : Platform} {K : Crypto} {keys : Keys} {m m' : Machine}

theorem Represents.resident (hRep : Represents m s) (hIn : (m.cpus h).isEnclave = true) :
    s (m.cpus h).eid = .running h := by
  rw [hRep.home]
  cases hCpu : m.cpus h with
  | mk isEnclave eid =>
    rw [hCpu] at hIn
    simp only at hIn
    rw [hIn]

theorem Represents.idle (hRep : Represents m s) (hHost : (m.cpus h).isEnclave = false) (eid : Nat) :
    s eid ≠ .running h := by
  intro hRunning
  rw [hRep.home] at hRunning
  rw [hRunning] at hHost
  cases hHost

theorem Represents.frame (hRep : Represents m s)
    (hState : ∀ eid, (m'.enclaves eid).state = (m.enclaves eid).state)
    (hThreads : ∀ eid, (m'.enclaves eid).nThread = (m.enclaves eid).nThread)
    (hCpus : m'.cpus = m.cpus) (hVector : ∀ h, (m'.harts h).mtvec = (m.harts h).mtvec) :
    Represents m' s := by
  refine ⟨?_, ?_, ?_, ?_⟩
  · intro eid
    rw [hState]
    exact hRep.state eid
  · intro eid
    rw [hThreads]
    exact hRep.threads eid
  · intro eid h
    rw [hCpus]
    exact hRep.home eid h
  · intro h
    rw [hVector, hCpus]
    exact hRep.vector h

theorem arrive_vector (m : Machine) (a : Arrival) (h : Nat) :
    ((m.arrive a).harts h).mtvec = (m.harts h).mtvec := by
  by_cases hEq : h = a.hart
  · simp [arrive, setHart, setMem, hEq]
  · simp [arrive, setHart, setMem, hEq]

section

variable (hRep : Represents m s)
include hRep

theorem Represents.arrive (a : Arrival) : Represents (m.arrive a) s :=
  hRep.frame (fun _ => rfl) (fun _ => rfl) rfl (arrive_vector m a)

theorem Represents.enterable {load : Bool} (hOk : Enterable P m eid load) :
    s eid = if load then .fresh else .stopped := by
  have hGuard := hOk.2
  cases load with
  | true =>
    simp only [if_true, hRep.state] at hGuard ⊢
    exact Stage.state_eq_fresh hGuard
  | false =>
    simp only [Bool.false_eq_true, if_false, hRep.state, hRep.threads] at hGuard ⊢
    rcases hGuard with ⟨hRunning | hStopped, hThreads⟩
    · -- a running enclave has no thread to spare
      rw [(Stage.threads_eq_one_iff _).mpr hRunning] at hThreads
      exact absurd hThreads (by decide)
    · exact Stage.state_eq_stopped hStopped

theorem Represents.destroyable (hOk : destroyable P m eid = true) :
    s eid = .fresh ∨ s eid = .stopped := by
  simp only [Keystone.destroyable, enclaveExists,
    Bool.and_eq_true, decide_eq_true_eq, hRep.state] at hOk
  cases hStage : s eid with
  | absent =>
    rw [hStage] at hOk
    exact absurd hOk.1.2 (by decide)
  | fresh => exact .inl rfl
  | running h =>
    rw [hStage] at hOk
    have hCode := hOk.2
    simp [Stage.state, EnclaveState.code] at hCode
  | stopped => exact .inr rfl

/- The context that a stop, an exit, an interrupt or a failure of an enclave needs. -/
theorem Represents.inEnclave (hIn : InEnclave m a) : (m.cpus a.hart).isEnclave = true := by
  unfold InEnclave at hIn
  split at hIn
  · exact hIn
  · exact (hRep.vector a.hart).mp hIn

end

----
-- Steps
----

open Riscv

section

variable (hRep : Represents m s)
include hRep

theorem represents_created {region shared : Nat} {args : CreateArgs} {t t' : PmpTable}
    (hAcc : CreateAccepted P m args eid region shared t t') : LifeStep s (update s eid .fresh) ∧
    Represents (m.created P K h eid args region shared t') (update s eid .fresh) := by
  have hFree := hAcc.slot_free
  rw [hRep.state] at hFree
  have hAbsent := Stage.state_eq_invalid hFree
  refine ⟨LifeStep.create eid hAbsent, ?_, ?_, ?_, hRep.vector⟩
  · intro e
    by_cases hEq : e = eid
    · subst hEq
      simp [created_slot_self, createdSlot, Stage.state]
    · simp [created_slot_ne hEq, hEq, hRep.state]
  · intro e
    by_cases hEq : e = eid
    · subst hEq
      simp [created_slot_self, createdSlot, Stage.threads]
    · simp [created_slot_ne hEq, hEq, hRep.threads]
  · intro e k
    have hHome := hRep.home e k
    by_cases hEq : e = eid
    · subst hEq
      rw [hAbsent] at hHome
      simpa [created] using hHome
    · simpa [created, hEq] using hHome

theorem represents_destroyed (hOk : destroyable P m eid = true) :
    LifeStep s (update s eid .absent) ∧ Represents (m.destroyed P eid) (update s eid .absent) := by
  have hStage := hRep.destroyable hOk
  refine ⟨LifeStep.destroy eid hStage, ?_, ?_, ?_, hRep.vector⟩
  · intro e
    by_cases hEq : e = eid
    · subst hEq
      simp [destroyed_state_self, Stage.state]
    · simp [destroyed_slot_ne hEq, hEq, hRep.state]
  · intro e
    by_cases hEq : e = eid
    · subst hEq
      simp [destroyed, Stage.threads]
    · simp [destroyed_slot_ne hEq, hEq, hRep.threads]
  · intro e k
    have hHome := hRep.home e k
    by_cases hEq : e = eid
    · subst hEq
      rcases hStage with hStage | hStage
      · rw [hStage] at hHome
        simpa [destroyed] using hHome
      · rw [hStage] at hHome
        simpa [destroyed] using hHome
    · simpa [destroyed, hEq] using hHome

theorem represents_entered {regs : TrapRegs} {load : Bool} {c : PmpBank}
    (hHost : (m.cpus h).isEnclave = false) (hOk : Enterable P m eid load) :
    LifeStep s (update s eid (.running h)) ∧
    Represents ((m.claim eid).entered h eid regs load c) (update s eid (.running h)) := by
  have hStage := hRep.enterable hOk
  have hReady : s eid = .fresh ∨ s eid = .stopped := by
    cases load with
    | true => exact .inl hStage
    | false => exact .inr hStage
  have hIdle := hRep.idle hHost
  have hNone : (m.enclaves eid).nThread = 0#32 := by
    rw [hRep.threads]
    rcases hReady with hEq | hEq
    · rw [hEq]
      rfl
    · rw [hEq]
      rfl
  refine ⟨LifeStep.enter eid h hReady hIdle, ?_, ?_, ?_, ?_⟩
  · intro e
    rw [entered_slot]
    by_cases hEq : e = eid
    · subst hEq
      simp [Stage.state]
    · simp [hEq, hRep.state]
  · intro e
    rw [entered_slot]
    by_cases hEq : e = eid
    · subst hEq
      simp [Stage.threads, hNone]
    · simp [hEq, hRep.threads]
  · intro e k
    have hHome := hRep.home e k
    have hCpus : ((m.claim eid).entered h eid regs load c).cpus = update m.cpus h ⟨true, eid⟩ := rfl
    rw [hCpus]
    by_cases hEq : e = eid
    · subst hEq
      by_cases hHart : k = h
      · subst hHart
        simp
      · have hNot : s e ≠ .running k := by
          rcases hReady with hSt | hSt
          · rw [hSt]
            simp
          · rw [hSt]
            simp
        simpa [hHart, Ne.symm hHart, hNot] using hHome
    · by_cases hHart : k = h
      · subst hHart
        simp [hEq, Ne.symm hEq, hIdle e]
      · simpa [hEq, hHart] using hHome
  · intro k
    by_cases hHart : k = h
    · subst hHart
      simp [entered]
    · simpa [entered, hHart, claim, setEnclave] using hRep.vector k

theorem represents_left {regs : TrapRegs} {returnOnResume : Bool} {c : PmpBank}
    (hIn : (m.cpus h).isEnclave = true) :
    let eid := (m.cpus h).eid
    LifeStep s (update s eid .stopped) ∧ Represents
        ((m.unclaim eid).left h eid regs returnOnResume c)
        (update s eid .stopped) := by
  intro eid
  have hStage : s eid = .running h := hRep.resident hIn
  have hOne : (m.enclaves eid).nThread = 1#32 := by
    rw [hRep.threads, hStage]
    rfl
  have hCpu : m.cpus h = ⟨true, eid⟩ := (hRep.home eid h).mp hStage
  refine ⟨LifeStep.leave eid h hStage, ?_, ?_, ?_, ?_⟩
  · intro e
    rw [left_slot]
    by_cases hEq : e = eid
    · subst hEq
      simp [Stage.state, hOne]
    · simp [hEq, hRep.state]
  · intro e
    rw [left_slot]
    by_cases hEq : e = eid
    · subst hEq
      simp [Stage.threads, hOne]
    · simp [hEq, hRep.threads]
  · intro e k
    have hHome := hRep.home e k
    have hCpus : ((m.unclaim eid).left h eid regs returnOnResume c).cpus =
        update m.cpus h ⟨false, eid⟩ := rfl
    rw [hCpus]
    by_cases hEq : e = eid
    · subst hEq
      by_cases hHart : k = h
      · subst hHart
        simp
      · rw [hStage] at hHome
        simpa [hHart, Ne.symm hHart] using hHome
    · by_cases hHart : k = h
      · subst hHart
        rw [hCpu] at hHome
        simpa [hEq, Ne.symm hEq] using hHome
      · simpa [hEq, hHart] using hHome
  · intro k
    by_cases hHart : k = h
    · subst hHart
      simp [Machine.left]
    · simpa [Machine.left, hHart, Machine.unclaim, setEnclave] using hRep.vector k

theorem represents_effect {out : Outcome} (hEffect : Effect P K m a out m') :
    ∃ s', (s' = s ∨ LifeStep s s') ∧ Represents m' s' := by
  have hArrive := hRep.arrive a
  cases hEffect with
  | quiet mem _ _ =>
    exact ⟨s, .inl rfl, hArrive.frame (fun _ => rfl) (fun _ => rfl) rfl (fun _ => rfl)⟩
  | created args eid region shared t t' _ _ _ hAcc =>
    rcases represents_created (K := K) (h := a.hart) hArrive hAcc with ⟨hStep, hNew⟩
    exact ⟨_, .inr hStep, hNew⟩
  | destroyed eid _ _ _ hOk =>
    rcases represents_destroyed (m := m.arrive a) hArrive hOk with ⟨hStep, hNew⟩
    exact ⟨_, .inr hStep, hNew⟩
  | entered eid load c hHost _ _ hOk _ =>
    rcases represents_entered (P := P) (c := c) (h := a.hart) hArrive hHost hOk with ⟨hStep, hNew⟩
    exact ⟨_, .inr hStep, hNew⟩
  | left kind regs c hIn _ _ _ =>
    rcases represents_left (c := c) (h := a.hart) hArrive (hRep.inEnclave hIn) with ⟨hStep, hNew⟩
    exact ⟨_, .inr hStep, hNew⟩

end

theorem represents_smInit {boot : Nat → Hart} {mem : Memory} (hInit : smInit P boot mem = some m) :
    Represents m (fun _ => .absent) := by
  rcases smInit_cases hInit with ⟨_, _, _, hSlots, hCpus, hHarts⟩
  refine ⟨?_, ?_, ?_, ?_⟩
  · intro eid
    rw [hSlots]
    rfl
  · intro eid
    rw [hSlots]
    rfl
  · intro eid h
    rw [hCpus]
    simp
  · intro h
    rw [hCpus, (hHarts h).1]
    simp

----
-- Runs
----

/- What holds in every state between calls. -/
structure LifeInv (P : Platform) (m : Machine) : Prop where
  regions : RegionInv P m
  stages : ∃ s, Represents m s

theorem lifeInv_smInit {boot : Nat → Hart} {mem : Memory} (hInit : smInit P boot mem = some m) :
    LifeInv P m :=
  ⟨regionInv_smInit hInit, _, represents_smInit hInit⟩

theorem lifeInv_effect {out : Outcome} (hInv : LifeInv P m) (hEffect : Effect P K m a out m') :
    LifeInv P m' := by
  rcases hInv.stages with ⟨s, hRep⟩
  rcases represents_effect hRep hEffect with ⟨s', _, hNew⟩
  exact ⟨regionInv_effect hInv.regions hEffect, s', hNew⟩

theorem lifeInv_step (hInv : LifeInv P m) (hStep : smStep P K keys m a = some m') :
    LifeInv P m' := by
  rcases smStep_effect hInv.regions hStep with ⟨out, _, hEffect⟩
  exact lifeInv_effect hInv hEffect

theorem lifeInv_run {as : List Arrival} (hInv : LifeInv P m)
    (hRun : Runs.exec (smStep P K keys) m as = some m') : LifeInv P m' :=
  Runs.exec_invariant (fun _ _ _ hs hStep => lifeInv_step hs hStep) hInv hRun

theorem Represents.one_hart (hRep : Represents m s) (eid : Nat) :
    ((m.enclaves eid).state = .running ↔ (m.enclaves eid).nThread = 1#32) ∧
    ((m.enclaves eid).state = .running ↔ ∃! h, m.cpus h = ⟨true, eid⟩) := by
  rw [hRep.state, hRep.threads]
  refine ⟨(Stage.threads_eq_one_iff _).symm, ?_⟩
  constructor
  · intro hState
    rcases Stage.state_eq_running hState with ⟨h, hStage⟩
    refine ⟨h, (hRep.home eid h).mp hStage, ?_⟩
    intro k hk
    have hOther := (hRep.home eid k).mpr hk
    rw [hStage] at hOther
    cases hOther
    rfl
  · rintro ⟨h, hCpu, _⟩
    rw [(hRep.home eid h).mpr hCpu]
    rfl

theorem Represents.no_threads (hRep : Represents m s) (hState : (m.enclaves eid).state ≠ .running) :
    (m.enclaves eid).nThread = 0#32 := by
  rw [hRep.state] at hState
  rw [hRep.threads]
  cases hStage : s eid with
  | absent | fresh => rfl
  | running h =>
    rw [hStage] at hState
    exact absurd rfl hState
  | stopped => rfl

/- The lifecycle of every enclave in a state between calls: running, one thread and one hart
   coincide, other slots have no thread, and every hart in enclave context runs an existing enclave.
   -/
structure Lifecycle (P : Platform) (m : Machine) : Prop where
  slots : ∀ eid, ((m.enclaves eid).state = .running ↔ (m.enclaves eid).nThread = 1#32) ∧
    ((m.enclaves eid).state = .running ↔ ∃! h, m.cpus h = ⟨true, eid⟩) ∧
    ((m.enclaves eid).state ≠ .running → (m.enclaves eid).nThread = 0#32) ∧
    (m.enclaves eid).nThread ≤ maxEnclThreads
  harts : ∀ h, (m.cpus h).isEnclave = true → (m.cpus h).eid < P.enclMax ∧
    (m.enclaves (m.cpus h).eid).state = .running

theorem LifeInv.lifecycle (hInv : LifeInv P m) : Lifecycle P m := by
  rcases hInv.stages with ⟨s, hRep⟩
  refine ⟨?_, ?_⟩
  · intro eid
    have hOne := hRep.one_hart eid
    refine ⟨hOne.1, hOne.2, hRep.no_threads, ?_⟩
    by_cases hState : (m.enclaves eid).state = .running
    · rw [hOne.1.mp hState]
      decide
    · rw [hRep.no_threads hState]
      decide
  · intro h hIn
    have hState : (m.enclaves (m.cpus h).eid).state = .running := by
      rw [hRep.state, hRep.resident hIn]
      rfl
    refine ⟨hInv.regions.slot_lt _ ?_, hState⟩
    rw [hState]
    simp

/- A trap moves each slot along an edge of the diagram or not at all. -/
theorem LifeInv.edge {out : Outcome} (hInv : LifeInv P m) (hEffect : Effect P K m a out m')
    (eid : Nat) : (m'.enclaves eid).state = (m.enclaves eid).state ∨
    LifecycleEdge (m.enclaves eid).state (m'.enclaves eid).state := by
  rcases hInv.stages with ⟨s, hRep⟩
  rcases represents_effect hRep hEffect with ⟨s', hSame | hMove, hNew⟩
  · left
    rw [hNew.state, hRep.state, hSame]
  · rw [hNew.state, hRep.state]
    exact hMove.edge eid

----
-- A Sample Session
----

/- A hart with clear PMP registers. -/
def sampleBoot : Nat → Hart := fun _ =>
  { pmp := fun _ => ⟨0, 0⟩
    mtvec := .host
    mideleg := 0
    mip := 0
    csrs := Csrs.zero
    f := fun _ => 0
    fcsr := 0 }

theorem sampleCrypto_sign_length (_ _ _ : List Byte) : (List.replicate 64 (0 : Byte)).length = 64 :=
  rfl

def sampleCrypto : Crypto where
  hash := fun _ => List.replicate 64 0
  sign := fun _ _ _ => List.replicate 64 0
  kdf := fun _ _ _ n => some (List.replicate n 0)
  sign_length := sampleCrypto_sign_length
  kdf_length := by
    intro s k i n okm hOkm
    cases hOkm
    simp

def sampleKeys : Keys where
  smHash := []
  smSignature := []
  smPublicKey := []
  smPrivateKey := []
  devPublicKey := []

/- An enclave with a private region of one megabyte and one shared page. -/
def sampleArgs : CreateArgs where
  epmRegion := ⟨0x90000000, 0x100000⟩
  utmRegion := ⟨0x91000000, 0x1000⟩
  runtimePaddr := 0x90001000
  userPaddr := 0x90002000
  freePaddr := 0x90003000
  freeRequested := 0

def sampleEnv : Env where
  createArgs := some sampleArgs
  translate := fun _ _ va => some va
  reportStack := ⟨⟨[], 0, [], []⟩, [], [], [], []⟩
  sp := 0x80010000
  random := 0

/- A frame whose first argument is `a0`. -/
def sampleRegs (a0 : Word) : TrapRegs where
  x := update (fun _ => 0) regA0 a0
  mepc := 0x80400000
  mstatus := 0

theorem sampleRegs_zero (a0 : Word) : (sampleRegs a0).x 0 = 0 := by
  simp [sampleRegs, regA0, update]

def sampleTrap (h : Nat) (trap : Trap) (a0 : Word) : Arrival where
  hart := h
  trap := trap
  regs := sampleRegs a0
  csrs := Csrs.zero
  f := fun _ => 0
  fcsr := 0
  mip := 0
  mem := fun _ => 0
  env := sampleEnv
  zero := sampleRegs_zero a0

abbrev createTrap : Arrival := sampleTrap 0 (.ecall sbiSmCreateEnclave) 0

/- Run from initialization on clear registers. -/
abbrev sampleInit : Option Machine := smInit .generic sampleBoot (fun _ => 0)

abbrev sampleStep : Machine → Arrival → Option Machine := smStep .generic sampleCrypto sampleKeys

def sampleRun (as : List Arrival) : Option Machine :=
  sampleInit.bind fun m =>
    Runs.exec sampleStep m as

theorem sampleRun_from {m₀ : Machine} (hInit : sampleInit = some m₀)
    (as : List Arrival) :
    sampleRun as = Runs.exec sampleStep m₀ as := by
  unfold sampleRun
  rw [hInit]
  rfl

/- Hart 0 creates an enclave, hart 1 runs it. -/
def sampleSession : List Arrival :=
  [createTrap, sampleTrap 1 (.ecall sbiSmRunEnclave) 0]

theorem sampleSession_runs : ∃ m₀ m, sampleRun sampleSession = some m ∧ sampleInit = some m₀ ∧
    Runs.exec sampleStep m₀ sampleSession = some m := by
  have hSome : (sampleRun sampleSession).isSome = true := by
    decide +kernel
  rcases Option.isSome_iff_exists.mp hSome with ⟨m, hRun⟩
  rcases Option.bind_eq_some_iff.mp hRun with ⟨m₀, hInit, hExec⟩
  exact ⟨m₀, m, hRun, hInit, hExec⟩

theorem exists_sampleInit : ∃ m₀, sampleInit = some m₀ := by
  rcases sampleSession_runs with ⟨m₀, _, _, hInit, _⟩
  exact ⟨m₀, hInit⟩

end Keystone
