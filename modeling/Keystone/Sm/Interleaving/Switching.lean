import Keystone.Sm.Interleaving.Destruction
import Keystone.Sm.Interleaving.Seats

/-
  Context switches under interleaving.

  A resume swaps in what the last completed switch out of the enclave has saved, and a destroy runs
  only after that switch, in the interleavings in which neither of them overtakes a hart on its way
  out, and in no others.
-/

----
-- Saved By A Completed Switch
----

namespace Keystone

open Function (update update_of_ne update_self)
open Option (bind_eq_some_iff bind_some map_eq_some_iff some)
open Runs (Guarded exec)
open Keystone.System (quiet step)

variable {P : Platform} {K : Crypto} {s₀ s s' : System} {seat seat' : Nat → Seat}
variable {pre : List Event} {e : Event} {eid : Nat} {context : ThreadState} {h : Nat}
variable {kind : LeaveKind} {left : TrapRegs}

/- The context is the one that a stop or exit of the enclave has saved by a switch to the host
   completed during `pre`, and no hart has swapped the thread slot since. -/
def SavedBy (P : Platform) (K : Crypto) (s₀ : System) (pre : List Event) (eid : Nat)
    (context : ThreadState) : Prop :=
  ∃ xs k mid s₁ s₂ kind left, pre = xs ++ .advance k :: mid ∧
      exec (step P K) s₀ xs = some s₁ ∧
      s₁.calls k = .leaveSwitch eid kind left ∧
      step P K s₁ (.advance k) = some s₂ ∧
      Guarded (step P K) (fun s d => ¬ Switches s d eid) s₂ mid ∧
      context = savedContext left (s₁.machine.harts k).csrs kind.returnOnResume

/- What a resume is about to swap in has been saved so. -/
def LoadsSaved (P : Platform) (K : Crypto) (s₀ : System) (es : List Event) : Prop :=
  ∀ pre post s h eid, es = pre ++ .advance h :: post → exec (step P K) s₀ pre = some s →
        (s.calls h).entering = some (eid, false) → SavedBy P K s₀ pre eid
            (s.machine.enclaves eid).thread

/- No destroy is past its state check while a hart has not completed its switch out of the enclave.
   -/
def DestroysAfter (s : System) : Prop :=
  ∀ h k eid, (s.calls h).owns = some eid → (s.calls k).leaving ≠ some eid

structure CompleteSwitches (P : Platform) (K : Crypto) (s₀ : System) (es : List Event) : Prop where
  loads : LoadsSaved P K s₀ es
  destroys : Runs.Always (step P K) DestroysAfter s₀ es

theorem SavedBy.extend (hSaved : SavedBy P K s₀ pre eid context)
    (hPre : exec (step P K) s₀ pre = some s) (hQuiet : ¬ Switches s e eid) :
    SavedBy P K s₀ (pre ++ [e]) eid context := by
  rcases hSaved with ⟨xs, k, mid, s₁, s₂, kind, left, hSplit, hReach, hCall, hStep, hMid, hContext⟩
  refine ⟨xs, k, mid ++ [e], s₁, s₂, kind, left, ?_, hReach, hCall, hStep, ?_, hContext⟩
  · rw [hSplit, List.append_assoc, List.cons_append]
  · rw [hSplit] at hPre
    rcases (Runs.exec_split_iff _).mp hPre with ⟨t₁, t₂, hReach', hStep', hRest⟩
    rw [hReach] at hReach'
    cases hReach'
    rw [hStep] at hStep'
    cases hStep'
    exact hMid.snoc hRest hQuiet

theorem savedBy_switch (hPre : exec (step P K) s₀ pre = some s)
    (hCall : s.calls h = .leaveSwitch eid kind left)
    (hStep : step P K s (.advance h) = some s') :
    SavedBy P K s₀ (pre ++ [.advance h]) eid (savedContext left (s.machine.harts h).csrs
      kind.returnOnResume) :=
  ⟨pre, h, [], s, s', kind, left, rfl, hPre, hCall, hStep, Runs.guarded_nil _ _, rfl⟩

----
-- Slots That Hold A Saved Context
----

/- The enclave is stopped with nobody inside, or a resume of it has been admitted and has not
   switched. -/
def Held (s : System) (seat : Nat → Seat) (eid : Nat) : Prop :=
  seat eid = .empty ∧ (s.machine.enclaves eid).state = .stopped ∨ ∃ k, seat eid = .entering k false

theorem Held.back (hHeld : Held s' seat' eid) (hSeat : seat' eid = seat eid)
    (hStopped : (s'.machine.enclaves eid).state = .stopped →
      (s.machine.enclaves eid).state = .stopped) : Held s seat eid := by
  rcases hHeld with ⟨hEmpty, hState⟩ | ⟨k, hEntering⟩
  · exact .inl ⟨hSeat ▸ hEmpty, hStopped hState⟩
  · exact .inr ⟨k, hSeat ▸ hEntering⟩

theorem Held.waits {p : Seat} (hHeld : Held s (update seat eid p) eid) :
    p = .empty ∨ ∃ k, p = .entering k false := by
  unfold Held at hHeld
  rw [update_self] at hHeld
  exact hHeld.imp And.left id

/- A slot that holds a saved context after a step has held it before, or the step has saved it. -/
theorem SeatChange.held (hChange : SeatChange s e s' seat seat') (hHeld : Held s' seat' eid) :
    (Held s seat eid ∧ ¬ Switches s e eid ∧ (s'.machine.enclaves eid).thread =
      (s.machine.enclaves eid).thread) ∨
    ∃ h kind left, e = .advance h ∧ s.calls h = .leaveSwitch eid kind left ∧
    (s'.machine.enclaves eid).thread = savedContext left (s.machine.harts h).csrs
    kind.returnOnResume := by
  cases hChange with
  | keep hQuiet hStates hThreads =>
    exact .inl ⟨hHeld.back rfl (hStates eid id), hQuiet eid, hThreads eid id⟩
  | admission eid' h load p hFrom hReady hQuiet hStates hThreads =>
    refine .inl ⟨?_, hQuiet eid, hThreads eid id⟩
    by_cases hE : eid = eid'
    · subst hE
      rcases hFrom with ⟨hEmpty, hP⟩ | ⟨k, hLeaving, hP⟩
      · subst hP
        rcases hHeld.waits with hNone | ⟨k, hEntering⟩
        · cases hNone
        · cases hEntering
          exact .inl ⟨hEmpty, hReady rfl⟩
      · subst hP
        rcases hHeld.waits with hNone | ⟨j, hEntering⟩
        · cases hNone
        · cases hEntering
    · exact hHeld.back (update_of_ne hE _ _) (hStates eid id)
  | switchIn eid' h load _ _ hOnly hFrom hStates hThreads =>
    by_cases hE : eid = eid'
    · subst hE
      rcases hHeld.waits with hNone | ⟨k, hEntering⟩
      · cases hNone
      · cases hEntering
    · exact .inl ⟨hHeld.back (update_of_ne hE _ _) (hStates eid id),
          fun hEid => hE (hOnly eid hEid),
          hThreads eid hE⟩
  | request eid' h hFrom hQuiet hStates hThreads =>
    refine .inl ⟨?_, hQuiet eid, hThreads eid id⟩
    by_cases hE : eid = eid'
    · subst hE
      rcases hHeld.waits with hNone | ⟨k, hEntering⟩
      · cases hNone
      · cases hEntering
    · exact hHeld.back (update_of_ne hE _ _) (hStates eid hE)
  | switchOut eid' h p kind regs hEvent hCall hFrom hStates hThreads hSaved =>
    by_cases hE : eid = eid'
    · subst hE
      exact .inr ⟨h, kind, regs, hEvent, hCall, hSaved⟩
    · refine .inl ⟨hHeld.back (update_of_ne hE _ _) (hStates eid id), ?_, hThreads eid hE⟩
      subst hEvent
      rintro ⟨k, hK, ⟨load, hIn⟩ | hOut⟩
      · cases hK
        rw [hCall] at hIn
        cases hIn
      · cases hK
        rw [hCall] at hOut
        cases hOut
        exact hE rfl

theorem SeatChange.outside (hChange : SeatChange s e s' seat seat') (hQuiet : ¬ Switches s e eid)
    (hNone : (seat eid).insider = none) : (seat' eid).insider = none := by
  cases hChange with
  | keep _ _ _ => exact hNone
  | admission eid' h load p hFrom _ _ _ _ =>
    by_cases hE : eid = eid'
    · subst hE
      rw [update_self]
      rcases hFrom with ⟨_, hP⟩ | ⟨k, hLeaving, _⟩
      · rw [hP]
        rfl
      · rw [hLeaving] at hNone
        cases hNone
    · rw [update_of_ne hE]
      exact hNone
  | switchIn eid' h load hEvent hCall _ _ _ _ =>
    have hE : eid ≠ eid' := by
      intro hEq
      apply hQuiet
      rw [hEq]
      exact ⟨h, hEvent, .inl ⟨load, hCall⟩⟩
    rw [update_of_ne hE]
    exact hNone
  | request eid' h hFrom _ _ _ =>
    have hE : eid ≠ eid' := by
      intro hEq
      rw [hEq, hFrom] at hNone
      cases hNone
    rw [update_of_ne hE]
    exact hNone
  | switchOut eid' h p kind regs hEvent hCall _ _ _ _ =>
    have hE : eid ≠ eid' := by
      intro hEq
      apply hQuiet
      refine ⟨h, hEvent, .inr ?_⟩
      rw [hCall, hEq]
      rfl
    rw [update_of_ne hE]
    exact hNone

theorem SeatChange.vacates (hChange : SeatChange s (.advance h) s' seat seat')
    (hCall : s.calls h = .leaveSwitch eid kind left) : (seat' eid).insider = none := by
  have hSwitch : Switches s (.advance h) eid := by
    refine ⟨h, rfl, .inr ?_⟩
    rw [hCall]
    rfl
  cases hChange with
  | keep hQuiet _ _ => exact absurd hSwitch (hQuiet eid)
  | admission _ _ _ _ _ _ hQuiet _ _ | request _ _ _ hQuiet _ _ => exact absurd hSwitch (hQuiet eid)
  | switchIn eid' k load hEvent hIn _ _ _ _ =>
    cases hEvent
    rw [hCall] at hIn
    cases hIn
  | switchOut eid' k p kind' regs hEvent hCall' hFrom _ _ _ =>
    cases hEvent
    rw [hCall] at hCall'
    cases hCall'
    rw [update_self]
    rcases hFrom with ⟨_, hP⟩ | ⟨j, _, hP⟩
    · rw [hP]
      rfl
    · rw [hP]
      rfl

----
-- Interleavings Without An Overtaking
----

variable {keys : Keys}

variable {m₀ : Machine}

/- No enclave has been entered since its creation. -/
def NotEntered (P : Platform) (m : Machine) : Prop :=
  ∀ eid < P.enclMax, (m.enclaves eid).state = .fresh ∨ (m.enclaves eid).state = .invalid

instance (P : Platform) (m : Machine) : Decidable (NotEntered P m) :=
  inferInstanceAs (Decidable (∀ eid < P.enclMax, _))

/- The steps by which the seats are kept in order. -/
def Orderly (P : Platform) (s : System) (e : Event) : Prop :=
  e.asksCreate = false ∧ SwitchDone P s e

theorem LifeInv.not_entered (hInv : LifeInv P m₀) (hFresh : NotEntered P m₀) (eid : Nat) :
    (m₀.enclaves eid).state = .fresh ∨ (m₀.enclaves eid).state = .invalid := by
  by_cases hInvalid : (m₀.enclaves eid).state = .invalid
  · exact .inr hInvalid
  · exact hFresh eid (hInv.regions.slot_lt eid hInvalid)

theorem seated_quiet (hInv : LifeInv P m₀) (hFresh : NotEntered P m₀) :
    Seated (quiet m₀) fun _ => .empty := by
  rcases hInv.stages with ⟨stage, hRep⟩
  have hStage : ∀ eid, stage eid = .fresh ∨ stage eid = .absent := by
    intro eid
    have hState := hInv.not_entered hFresh eid
    rw [hRep.state eid] at hState
    rcases hState with hState | hState
    · exact .inl (Stage.state_eq_fresh hState)
    · exact .inr (Stage.state_eq_invalid hState)
  refine ⟨?_, ?_, hRep.vector, fun _ => trivial, ?_⟩
  · intro h eid x
    cases x with
    | inside =>
      have hHome := hRep.home eid h
      rcases hStage eid with hEq | hEq
      · simpa [quiet, hEq] using hHome
      · simpa [quiet, hEq] using hHome
    | entering load | leaving => simp [quiet, Call.entering, Call.leaving]
  · intro eid
    have hState := hRep.state eid
    have hThreads := hRep.threads eid
    simp only [quiet, Seat.Shows, hState, hThreads]
    rcases hStage eid with hEq | hEq
    · rw [hEq]
      exact ⟨by decide, rfl⟩
    · rw [hEq]
      exact ⟨by decide, rfl⟩
  · intro h eid hOwns
    cases hOwns

/- The seats are in order, and a slot that is ready for a resume holds what the last completed
   switch has saved. -/
def SlotsSaved (P : Platform) (K : Crypto) (s₀ : System) (pre : List Event) (s : System) : Prop :=
  ∃ seat, Seated s seat ∧ ∀ eid, Held s seat eid →
      SavedBy P K s₀ pre eid (s.machine.enclaves eid).thread

theorem SlotsSaved.step (hPre : exec (step P K) s₀ pre = some s)
    (hSlots : SlotsSaved P K s₀ pre s) (hOk : Orderly P s e)
    (hStep : step P K s e = some s') : SlotsSaved P K s₀ (pre ++ [e]) s' := by
  rcases hSlots with ⟨seat, hSeated, hSaved⟩
  rcases step_seated hSeated hOk.1 hOk.2 hStep with ⟨seat', hChange, hSeated'⟩
  refine ⟨seat', hSeated', ?_⟩
  intro eid hHeld
  rcases hChange.held hHeld with ⟨hBefore, hQuiet, hThread⟩ |
      ⟨h, kind, left, hEvent, hCall, hThread⟩
  · rw [hThread]
    exact (hSaved eid hBefore).extend hPre hQuiet
  · subst hEvent
    rw [hThread]
    exact savedBy_switch hPre hCall hStep

theorem seats_history (hStart : Seated s₀ fun _ => .empty)
    (hNone : ∀ eid, (s₀.machine.enclaves eid).state ≠ .stopped)
    (hOk : Guarded (step P K) (Orderly P) s₀ pre)
    (hPre : exec (step P K) s₀ pre = some s) : SlotsSaved P K s₀ pre s := by
  apply Runs.exec_history ?_ ?_ hOk hPre
  · refine ⟨_, hStart, ?_⟩
    rintro eid (⟨_, hStopped⟩ | ⟨k, hEntering⟩)
    · exact absurd hStopped (hNone eid)
    · cases hEntering
  · intro xs t e u hExec hSlots hOrderly hStep
    exact SlotsSaved.step hExec hSlots hOrderly hStep

theorem Seated.destroysAfter (hSeated : Seated s seat) : DestroysAfter s := by
  intro h k eid hOwns hLeaving
  have hEmpty := hSeated.dead_empty (hSeated.destroyed h eid hOwns)
  have hLeaver := (hSeated.leaver k eid).mp hLeaving
  rw [hEmpty] at hLeaver
  cases hLeaver

/- A resume that no leaving hart precedes finds a slot that holds a saved context. -/
theorem Seated.resume_held (hSeated : Seated s seat)
    (hEntering : (s.calls h).entering = some (eid, false))
    (hNone : ∀ k, (s.calls k).leaving ≠ some eid) : Held s seat eid := by
  have hEntrant := (hSeated.part h eid (.entering false)).mp hEntering
  cases hSeat : seat eid with
  | entering k load =>
    rw [hSeat] at hEntrant
    cases hEntrant
    exact .inr ⟨h, hSeat⟩
  | handover k j =>
    refine absurd ((hSeated.leaver k eid).mpr ?_) (hNone k)
    rw [hSeat]
    rfl
  | empty | inside k | leaving k =>
    rw [hSeat] at hEntrant
    cases hEntrant

/- Since a completed switch that nobody has followed, no hart is on its way out. -/
theorem savedBy_not_leaving (hStart : Seated s₀ fun _ => .empty)
    (hNone : ∀ eid, (s₀.machine.enclaves eid).state ≠ .stopped)
    (hOk : Guarded (step P K) (Orderly P) s₀ pre)
    (hPre : exec (step P K) s₀ pre = some s) (hSaved : SavedBy P K s₀ pre eid context)
    (k : Nat) : (s.calls k).leaving ≠ some eid := by
  have hVacant : ∀ t d u, (∃ seat, Seated t seat ∧ (seat eid).insider = none) →
      Orderly P t d ∧ ¬ Switches t d eid → step P K t d = some u →
      ∃ seat, Seated u seat ∧ (seat eid).insider = none := by
    rintro t d u ⟨seat, hSeated, hNone⟩ ⟨hOrderly, hQuiet⟩ hStep
    rcases step_seated hSeated hOrderly.1 hOrderly.2 hStep with ⟨seat', hChange, hSeated'⟩
    exact ⟨seat', hSeated', hChange.outside hQuiet hNone⟩
  rcases hSaved with ⟨xs, j, mid, s₁, s₂, kind, left, hSplit, hReach, hCall, hStep, hMid, _⟩
  rw [hSplit] at hOk hPre
  rcases (Runs.exec_split_iff _).mp hPre with ⟨t₁, t₂, hReach', hStep', hRest⟩
  rw [hReach] at hReach'
  cases hReach'
  rw [hStep] at hStep'
  cases hStep'
  have hFrom := hOk.suffix hReach
  rcases seats_history hStart hNone hOk.initial hReach with ⟨seat₁, hSeated₁, _⟩
  rcases step_seated hSeated₁ hFrom.head.1 hFrom.head.2 hStep with ⟨seat₂, hChange, hSeated₂⟩
  rcases Runs.exec_invariant_of_guarded hVacant ⟨seat₂, hSeated₂, hChange.vacates hCall⟩
    ((hFrom.tail hStep).and hMid) hRest with
    ⟨seat, hSeated, hOutside⟩
  intro hLeaving
  have hInside := Seat.leaver_insider ((hSeated.leaver k eid).mp hLeaving)
  rw [hOutside] at hInside
  cases hInside

theorem destroy_overtakes {k : Nat} (hCall : s.calls h = .destroyCheck eid)
    (hTest : destroyable P s.machine eid = true) (hLeaving : (s.calls k).leaving = some eid) :
    ∃ s', step P K s (.advance h) = some s' ∧ ¬ DestroysAfter s' := by
  rcases destroyable_owned (K := K) hCall hTest with ⟨s', hStep, hOwner, hOthers⟩
  have hNe : k ≠ h := by
    intro hEq
    rw [hEq, hCall] at hLeaving
    cases hLeaving
  refine ⟨s', hStep, ?_⟩
  intro hAfter
  refine hAfter h k eid hOwner ?_
  rw [hOthers k hNe]
  exact hLeaving

/- In an interleaving of runs, resumes, stops, exits and destroys of enclaves that have not been
   entered before, every resume swaps in what the last completed switch to the host has saved and
   every destroy runs after that switch, if and only if none of them overtakes a hart on its way
   out. -/
theorem completeSwitches_iff (boot : Nat → Hart) (mem : Memory) (m m₀ : Machine) (as : List Arrival)
    (es : List Event) (hInit : smInit P boot mem = some m)
    (hRun : exec (smStep P K keys) m as = some m₀) (hFresh : NotEntered P m₀)
    (hNoCreate : ∀ e ∈ es, e.asksCreate = false) :
    CompleteSwitches P K (quiet m₀) es ↔ Guarded (step P K) (SwitchDone P)
    (quiet m₀) es := by
  have hInv := lifeInv_run (lifeInv_smInit hInit) hRun
  have hStart := seated_quiet hInv hFresh
  have hNone : ∀ eid, (m₀.enclaves eid).state ≠ .stopped := by
    intro eid hStopped
    have hState := hInv.not_entered hFresh eid
    rw [hStopped] at hState
    rcases hState with hEq | hEq
    · cases hEq
    · cases hEq
  have hCalls : Guarded (step P K) (fun _ e => e.asksCreate = false) (quiet m₀) es :=
    Runs.guarded_of_mem hNoCreate
  constructor
  · intro hSwitches
    by_contra hFails
    rcases Guarded.first_failure hFails with ⟨pre, e, post, s, hSplit, hPre, hBefore, hBad⟩
    rw [hSplit] at hCalls
    have hOk := hCalls.initial.and hBefore
    simp only [SwitchDone, not_forall, not_not] at hBad
    rcases hBad with ⟨h, k, eid, hEvent, hOvertakes, hLeaving⟩
    subst hEvent
    rcases hOvertakes with hEntering | ⟨hCall, hTest⟩
    · have hSaved := hSwitches.loads pre post s h eid hSplit hPre hEntering
      exact savedBy_not_leaving hStart hNone hOk hPre hSaved k hLeaving
    · rcases destroy_overtakes (K := K) hCall hTest hLeaving with ⟨s', hStep, hNot⟩
      refine hNot (hSwitches.destroys (pre ++ [.advance h]) post s' ?_ ?_)
      · rw [hSplit, List.append_assoc]
        rfl
      · exact (Runs.exec_append_iff _).mpr ⟨s, hPre, (Runs.exec_singleton_iff _).mpr hStep⟩
  · intro hDone
    have hOk := hCalls.and hDone
    refine ⟨?_, ?_⟩
    · intro pre post s h eid hSplit hPre hEntering
      rw [hSplit] at hOk
      rcases seats_history hStart hNone hOk.initial hPre with ⟨seat, hSeated, hSaved⟩
      apply hSaved eid
      apply hSeated.resume_held hEntering
      intro k
      exact (hOk.suffix hPre).head.2 h k eid rfl (.inl hEntering)
    · intro pre post s hSplit hPre
      rw [hSplit] at hOk
      rcases seats_history hStart hNone hOk.initial hPre with ⟨seat, hSeated, _⟩
      exact hSeated.destroysAfter

----
-- Sample Interleavings
----

def startRun (h : Nat) : Event := .start (sampleTrap h (.ecall sbiSmRunEnclave) 0)

def startResume (h : Nat) : Event := .start (sampleTrap h (.ecall sbiSmResumeEnclave) 0)

theorem stopRegs_zero : (sampleRegs 1).x 0 = 0 := sampleRegs_zero 1

/- The enclave on hart `h` asks to be stopped, at an address of its own. -/
def startStop (h : Nat) : Event :=
  .start
    { sampleTrap h (.ecall sbiSmStopEnclave) 1 with
      regs := { sampleRegs 1 with mepc := 0x1000 }
      zero := stopRegs_zero }

/- One enclave, created and not entered. -/
def sampleCreated : List Arrival := [createTrap]

/- Run the system from there. -/
def sampleEntered (es : List Event) : Option System :=
  (sampleRun sampleCreated).bind fun m =>
    exec (step .generic sampleCrypto) (quiet m) es

/- Hart 1 runs the enclave and asks for a stop. -/
def untilStop : List Event := [startRun 1, .advance 1, .advance 1, startStop 1, .advance 1]

/- Hart 1 has left when hart 0 resumes. -/
def handedOver : List Event := untilStop ++ [startResume 0, .advance 0, .advance 1, .advance 0]

theorem completeSwitches_iff_handedOver : ∃ m m₀ s,
    sampleInit = some m ∧
    exec sampleStep m sampleCreated = some m₀ ∧
    exec (step .generic sampleCrypto) (quiet m₀) handedOver = some s ∧
    s.machine.cpus 0 = ⟨true, 0⟩ ∧
    (CompleteSwitches .generic sampleCrypto (quiet m₀) handedOver ↔
      Guarded (step .generic sampleCrypto) (SwitchDone .generic) (quiet m₀)
      handedOver) := by
  have hFinal : (sampleEntered handedOver).map (fun s => s.machine.cpus 0) = some ⟨true, 0⟩ := by
    decide +kernel
  have hFresh : (sampleRun sampleCreated).map (fun m => decide (NotEntered .generic m)) =
        some true := by
    decide +kernel
  rcases map_eq_some_iff.mp hFinal with ⟨s, hSystem, hCpu⟩
  rcases bind_eq_some_iff.mp hSystem with ⟨m₀, hRun, hExec⟩
  rcases bind_eq_some_iff.mp hRun with ⟨m, hInit, hCreate⟩
  rw [hRun] at hFresh
  refine ⟨m, m₀, s, hInit, hCreate, hExec, hCpu, ?_⟩
  exact completeSwitches_iff sampleBoot (fun _ => 0) m m₀ sampleCreated handedOver hInit hCreate
    (of_decide_eq_true (some.inj hFresh))
    (by decide)

/- Hart 0 resumes while hart 1 is on its way out. -/
def overtakingResume : List Event := untilStop ++ [startResume 0, .advance 0]

/- Hart 0 destroys while hart 1 is on its way out. -/
def overtakingDestroy : List Event := untilStop ++ [startDestroy 0, .advance 0]

/- The enclave out of which the event switches. -/
def Event.leaving (s : System) : Event → Option Nat
| .start _ => none
| .advance h => (s.calls h).leaving

/- Hart 0 is about to swap in the host registers of hart 1, and no switch to the host has been
   completed. A destroy in the same window is accepted. -/
theorem completeSwitches_fails_on_overtaking : ∃ m₀ s s', sampleRun sampleCreated = some m₀ ∧
    NotEntered .generic m₀ ∧
    exec (step .generic sampleCrypto) (quiet m₀) overtakingResume = some s ∧
    (s.calls 0).entering = some (0, false) ∧
    (s.calls 1).leaving = some 0 ∧
    (s.machine.enclaves 0).thread.prevMepc = (sampleRegs 0).mepc ∧
    ¬ LoadsSaved .generic sampleCrypto (quiet m₀) (overtakingResume ++ [.advance 0]) ∧
    exec (step .generic sampleCrypto)
    (quiet m₀) overtakingDestroy = some s' ∧
    ¬ DestroysAfter s' := by
  have hFresh : (sampleRun sampleCreated).map (fun m => decide (NotEntered .generic m)) =
        some true := by
    decide +kernel
  have hResume : (sampleEntered overtakingResume).map (fun s => ((s.calls 0).entering,
            (s.calls 1).leaving,
            (s.machine.enclaves 0).thread.prevMepc)) =
        some (some (0, false), some 0, (sampleRegs 0).mepc) := by
    decide +kernel
  have hNever : ∀ i < 7, (sampleEntered (overtakingResume.take i)).map
            (fun s => overtakingResume[i]?.bind (Event.leaving s)) =
          some none := by
    decide +kernel
  have hDestroy : (sampleEntered overtakingDestroy).map (fun s => ((s.calls 0).owns,
            (s.calls 1).leaving)) =
        some (some 0, some 0) := by
    decide +kernel
  rcases map_eq_some_iff.mp hResume with ⟨s, hSystem, hEq⟩
  simp only [Prod.mk.injEq] at hEq
  rcases hEq with ⟨hEntering, hLeaving, hMepc⟩
  rcases map_eq_some_iff.mp hDestroy with ⟨s', hSystem', hEq⟩
  simp only [Prod.mk.injEq] at hEq
  rcases hEq with ⟨hOwns, hLeaving'⟩
  rcases bind_eq_some_iff.mp hSystem with ⟨m₀, hRun, hExec⟩
  rw [hRun] at hFresh
  rw [sampleEntered, hRun, bind_some] at hSystem'
  refine ⟨m₀, s, s', hRun, of_decide_eq_true (some.inj hFresh), hExec,
    hEntering, hLeaving, hMepc, ?_, hSystem', ?_⟩
  · intro hLoads
    rcases hLoads overtakingResume [] s 0 0 rfl hExec hEntering with
      ⟨xs, k, mid, s₁, s₂, kind, left, hSplit, hReach, hCall, _⟩
    have hLength : xs.length < 7 := by
      have hAll := congrArg List.length hSplit
      rw [List.length_append] at hAll
      simp only [overtakingResume, untilStop, List.length_append, List.length_cons,
        List.length_nil] at hAll
      omega
    have hAt := hNever xs.length hLength
    rw [hSplit, List.take_left, sampleEntered, hRun, bind_some, hReach,
      List.getElem?_append_right (le_rfl),
      Nat.sub_self] at hAt
    simp only [Option.map_some, List.getElem?_cons_zero,
      bind_some, Event.leaving, hCall, Call.leaving]
      at hAt
    cases hAt
  · intro hAfter
    exact hAfter 0 1 0 hOwns hLeaving'

end Keystone
