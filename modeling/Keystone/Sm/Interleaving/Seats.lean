import Keystone.Sm.Context
import Keystone.Sm.Interleaving.Bookkeeping

/-
  Which harts are on their way into an enclave, inside it or on their way out, while calls
  interleave.

  A stop or exit publishes the enclave as stopped before it switches the hart back to the host. In
  between another hart can be admitted by a resume. As long as no admitted hart switches and no
  destroy is accepted in that window, every enclave has one seat, which is taken over in turn.

  Main declarations:
  * `Seat`: the harts that have to do with an enclave
  * `Seated`: the seats behind a state of the system
  * `SeatChange`: how one step changes the seats
  * `step_seated`: every orderly step changes them in one of these ways
-/

----
-- Windows
----

namespace Keystone

open Function (update update_of_ne update_self)
open Machine (claim entered left setEnclave unclaim)
open Keystone.System (moved)

variable {p : Seat} {h : Nat}

/- The enclave into which a call switches next, and whether for a first run. -/
def Call.entering : Call → Option (Nat × Bool)
| .enterSwitch eid load _ => some (eid, load)
| _ => none

/- The enclave whose state a stop or exit has updated, but out of which it has not switched yet. -/
def Call.leaving : Call → Option Nat
| .leaveSwitch eid _ _ => some eid
| _ => none

/- No resume switches into an enclave and no destroy of it is accepted while a hart has not
   completed its switch out of it. -/
def SwitchDone (P : Platform) (s : System) (e : Event) : Prop :=
  ∀ h k eid, e = .advance h → ((s.calls h).entering = some (eid, false) ∨
        s.calls h = .destroyCheck eid ∧ destroyable P s.machine eid = true) →
        (s.calls k).leaving ≠ some eid

/- The event asks for a new enclave. -/
def Event.asksCreate : Event → Bool
| .start a => decide (a.trap = .ecall sbiSmCreateEnclave)
| .advance _ => false

----
-- Seats
----

/- The harts that have to do with an enclave. -/
inductive Seat where
| empty
| entering (k : Nat) (load : Bool)
| inside (h : Nat)
| leaving (h : Nat)
| handover (h k : Nat)

/- What a hart can have to do with an enclave. -/
inductive Part where
| inside
| entering (load : Bool)
| leaving

namespace Seat

/- The hart in the context of the enclave. -/
@[simp] def insider : Seat → Option Nat
| .inside h => some h
| .leaving h => some h
| .handover h _ => some h
| _ => none

/- The hart that has been admitted. -/
@[simp] def entrant : Seat → Option (Nat × Bool)
| .entering k load => some (k, load)
| .handover _ k => some (k, false)
| _ => none

/- The hart on its way out. -/
@[simp] def leaver : Seat → Option Nat
| .leaving h => some h
| .handover h _ => some h
| _ => none

@[simp] def Holds (p : Seat) (h : Nat) : Part → Prop
| .inside => p.insider = some h
| .entering load => p.entrant = some (h, load)
| .leaving => p.leaver = some h

/- State and thread count of the enclave. -/
def Shows : Seat → EnclaveState → BitVec 32 → Prop
| .empty, state, nThread => state ≠ .running ∧ nThread = 0#32
| .leaving _, state, nThread => state = .stopped ∧ nThread = 0#32
| _, state, nThread => state = .running ∧ nThread = 1#32

theorem eq_of_insider (hIn : p.insider = some h) : p = .inside h ∨ p.leaver = some h := by
  cases p with
  | empty | entering k load => cases hIn
  | inside k =>
    cases hIn
    exact .inl rfl
  | leaving k | handover k j => exact .inr hIn

theorem eq_of_leaver (hLeaver : p.leaver = some h) : p = .leaving h ∨ ∃ k, p = .handover h k := by
  cases p with
  | empty | entering k load | inside k => cases hLeaver
  | leaving k =>
    cases hLeaver
    exact .inl rfl
  | handover k j =>
    cases hLeaver
    exact .inr ⟨j, rfl⟩

theorem eq_of_entrant {load : Bool} (hIn : p.entrant = some (h, load)) : p = .entering h load ∨
    load = false ∧ ∃ k, p = .handover k h := by
  cases p with
  | empty | inside k | leaving k => cases hIn
  | entering k l =>
    cases hIn
    exact .inl rfl
  | handover k j =>
    cases hIn
    exact .inr ⟨rfl, k, rfl⟩

theorem eq_of_shows {state : EnclaveState} {nThread : BitVec 32} (hShows : p.Shows state nThread)
    (hIdle : state ≠ .running ∨ nThread ≠ 1#32) : p = .empty ∨ ∃ k, p = .leaving k := by
  cases p with
  | empty => exact .inl rfl
  | leaving k => exact .inr ⟨k, rfl⟩
  | entering k load | inside k | handover k j => exact (not_and_or.mpr hIdle hShows).elim

theorem leaver_insider (hLeaver : p.leaver = some h) : p.insider = some h := by
  rcases eq_of_leaver hLeaver with rfl | ⟨k, rfl⟩
  · rfl
  · rfl

end Seat

/- The context in which a call is made. -/
def Call.InContext (cpu : CpuState) : Call → Prop
| .enterCheck _ _ _ => cpu.isEnclave = false
| .enterSwitch _ _ _ => cpu.isEnclave = false
| .leaveCheck _ _ => cpu.isEnclave = true
| .createAlloc _ => False
| .createEpm _ _ => False
| .createUtm _ _ _ => False
| .createSetup _ _ _ _ => False
| .createPublish _ _ _ => False
| .createUnset _ _ _ _ => False
| .createFreeShared _ _ _ _ => False
| .createFreeRegion _ _ _ => False
| .createFreeEid _ _ => False
| _ => True

/- The part of a hart, by its context and its call. -/
@[simp] def System.Plays (s : System) (h eid : Nat) : Part → Prop
| .inside => s.machine.cpus h = ⟨true, eid⟩
| .entering load => (s.calls h).entering = some (eid, load)
| .leaving => (s.calls h).leaving = some eid

/- A destroy has begun and no other enclave is in the slot yet. -/
def EnclaveState.Dead (state : EnclaveState) : Prop := state = .destroying ∨ state = .invalid

/- The seats behind a state of the system. -/
structure Seated (s : System) (seat : Nat → Seat) : Prop where
  part : ∀ h eid x, s.Plays h eid x ↔ (seat eid).Holds h x
  shows : ∀ eid, (seat eid).Shows (s.machine.enclaves eid).state (s.machine.enclaves eid).nThread
  vector : ∀ h, (s.machine.harts h).mtvec = .enclave ↔ (s.machine.cpus h).isEnclave = true
  context : ∀ h, (s.calls h).InContext (s.machine.cpus h)
  destroyed : ∀ h eid, (s.calls h).owns = some eid → (s.machine.enclaves eid).state.Dead

theorem EnclaveState.Dead.idle {state : EnclaveState} (hDead : state.Dead) :
    state ≠ .running ∧ state ≠ .stopped := by
  rcases hDead with rfl | rfl
  · decide
  · decide

variable {s : System} {seat : Nat → Seat} {m' : Machine} {c' : Call}

theorem none_some {α : Type} {a : α} {p : Prop} (hEq : none = some a) : p := by
  cases hEq

theorem Seated.leaver (hSeated : Seated s seat) (h eid : Nat) :
    (s.calls h).leaving = some eid ↔ (seat eid).leaver = some h :=
  hSeated.part h eid .leaving

/- The call is at no switch. -/
structure Call.Quiet (c : Call) : Prop where
  entering : c.entering = none
  leaving : c.leaving = none

/- A step that leaves all seats as they are. -/
theorem Seated.keep (hSeated : Seated s seat) (hCpus : m'.cpus = s.machine.cpus)
    (hVector : ∀ k, (m'.harts k).mtvec = (s.machine.harts k).mtvec)
    (hOld : (s.calls h).Quiet) (hNew : c'.Quiet) (hContext : c'.InContext (s.machine.cpus h))
    (hShows : ∀ eid, (seat eid).Shows (m'.enclaves eid).state (m'.enclaves eid).nThread)
    (hOwn : ∀ eid, c'.owns = some eid → (m'.enclaves eid).state.Dead)
    (hOthers : ∀ eid, (s.machine.enclaves eid).state.Dead → (m'.enclaves eid).state.Dead) :
    Seated (s.moved h m' c') seat := by
  refine ⟨?_, hShows, ?_, ?_, ?_⟩
  · intro k eid x
    rw [← hSeated.part k eid x]
    by_cases hK : k = h
    · subst hK
      cases x with
      | inside | entering l | leaving =>
        simp only [System.Plays, moved, update_self, hCpus, hOld.entering, hOld.leaving,
          hNew.entering, hNew.leaving]
    · cases x with
      | inside | entering l | leaving =>
        simp only [System.Plays, moved, update_of_ne hK, hCpus]
  · intro k
    simp only [moved, hCpus, hVector]
    exact hSeated.vector k
  · intro k
    by_cases hK : k = h
    · subst hK
      simp only [moved, update_self, hCpus]
      exact hContext
    · simp only [moved, update_of_ne hK, hCpus]
      exact hSeated.context k
  · intro k eid hOwns
    by_cases hK : k = h
    · subst hK
      simp only [moved, update_self] at hOwns
      exact hOwn eid hOwns
    · simp only [moved, update_of_ne hK] at hOwns
      exact hOthers eid (hSeated.destroyed k eid hOwns)

variable {eid : Nat} {m : Machine} {load : Bool} {regs : TrapRegs} {kind : LeaveKind} {a : Arrival}

theorem not_inside {cpu : CpuState} (hHost : cpu.isEnclave = false) : cpu ≠ ⟨true, eid⟩ := by
  rintro rfl
  cases hHost

theorem not_plays (hQuiet : (s.calls h).Quiet) (hHost : (s.machine.cpus h).isEnclave = false)
    (eid : Nat) (x : Part) : ¬ s.Plays h eid x := by
  cases x with
  | inside => exact not_inside hHost
  | entering l | leaving => simp [hQuiet.entering, hQuiet.leaving]

/- A step by which hart `h` changes one seat. It has to do with no other enclave, before and after.
   -/
theorem Seated.move (hSeated : Seated s seat) (hCpus : ∀ k ≠ h, m'.cpus k = s.machine.cpus k)
    (hOld : ∀ e x, s.Plays h e x → e = eid)
    (hNew : ∀ e x, (s.moved h m' c').Plays h e x ↔ e = eid ∧ p.Holds h x)
    (hSame : ∀ k ≠ h, ∀ x, p.Holds k x ↔ (seat eid).Holds k x)
    (hShows : p.Shows (m'.enclaves eid).state (m'.enclaves eid).nThread)
    (hOther : ∀ e ≠ eid, m'.enclaves e = s.machine.enclaves e)
    (hVector : ∀ k, (m'.harts k).mtvec = .enclave ↔ (m'.cpus k).isEnclave = true)
    (hContext : c'.InContext (m'.cpus h)) (hOwn : c'.owns = none)
    (hAlive : ¬ (s.machine.enclaves eid).state.Dead) :
    Seated (s.moved h m' c') (update seat eid p) := by
  refine ⟨?_, ?_, hVector, ?_, ?_⟩
  · intro k e x
    by_cases hK : k = h
    · subst hK
      rw [hNew e x]
      by_cases hE : e = eid
      · subst hE
        rw [update_self]
        exact and_iff_right rfl
      · rw [update_of_ne hE, ← hSeated.part k e x]
        exact ⟨fun hBoth => absurd hBoth.1 hE, fun hIn => absurd (hOld e x hIn) hE⟩
    · have hKept : (s.moved h m' c').Plays k e x ↔ s.Plays k e x := by
        cases x with
        | inside | entering l | leaving =>
          simp only [System.Plays, moved, update_of_ne hK, hCpus k hK]
      rw [hKept, hSeated.part k e x]
      by_cases hE : e = eid
      · subst hE
        rw [update_self]
        exact (hSame k hK x).symm
      · rw [update_of_ne hE]
  · intro e
    by_cases hE : e = eid
    · subst hE
      rw [update_self]
      exact hShows
    · rw [update_of_ne hE]
      simp only [moved, hOther e hE]
      exact hSeated.shows e
  · intro k
    by_cases hK : k = h
    · subst hK
      simp only [moved, update_self]
      exact hContext
    · simp only [moved, update_of_ne hK, hCpus k hK]
      exact hSeated.context k
  · intro k e hOwns
    by_cases hK : k = h
    · subst hK
      simp only [moved, update_self, hOwn] at hOwns
      cases hOwns
    · simp only [moved, update_of_ne hK] at hOwns ⊢
      have hDead := hSeated.destroyed k e hOwns
      have hE : e ≠ eid := by
        intro hEq
        exact hAlive (hEq ▸ hDead)
      rw [hOther e hE]
      exact hDead

----
-- Changes Of Seats
----

/- The event switches a hart into or out of the enclave. -/
def Switches (s : System) (e : Event) (eid : Nat) : Prop :=
  ∃ h, e = .advance h ∧ ((∃ load, (s.calls h).entering = some (eid, load)) ∨
      (s.calls h).leaving = some eid)

/- States do not become stopped, apart from one slot. -/
def NotStopped (m m' : Machine) (apart : Nat → Prop) : Prop :=
  ∀ eid, ¬ apart eid → (m'.enclaves eid).state = .stopped → (m.enclaves eid).state = .stopped

/- Thread slots are kept, apart from one. -/
def ThreadsKept (m m' : Machine) (apart : Nat → Prop) : Prop :=
  ∀ eid, ¬ apart eid → (m'.enclaves eid).thread = (m.enclaves eid).thread

/- How one step changes the seats and the thread slots. -/
inductive SeatChange (s : System) (e : Event) (s' : System) (seat : Nat → Seat) :
    (Nat → Seat) → Prop where
| keep (hQuiet : ∀ eid, ¬ Switches s e eid)
    (hStates : NotStopped s.machine s'.machine fun _ => False)
    (hThreads : ThreadsKept s.machine s'.machine fun _ => False) :
    SeatChange s e s' seat seat
| admission (eid h : Nat) (load : Bool) (p : Seat)
    (hFrom : seat eid = .empty ∧ p = .entering h load ∨
        ∃ k, seat eid = .leaving k ∧ p = .handover k h)
    (hReady : load = false → (s.machine.enclaves eid).state = .stopped)
    (hQuiet : ∀ eid, ¬ Switches s e eid) (hStates : NotStopped s.machine s'.machine fun _ => False)
    (hThreads : ThreadsKept s.machine s'.machine fun _ => False) :
    SeatChange s e s' seat (update seat eid p)
| switchIn (eid h : Nat) (load : Bool) (hEvent : e = .advance h)
    (hCall : (s.calls h).entering = some (eid, load)) (hOnly : ∀ e', Switches s e e' → e' = eid)
    (hFrom : seat eid = .entering h load) (hStates : NotStopped s.machine s'.machine fun _ => False)
    (hThreads : ThreadsKept s.machine s'.machine fun x => x = eid) :
    SeatChange s e s' seat (update seat eid (.inside h))
| request (eid h : Nat) (hFrom : seat eid = .inside h) (hQuiet : ∀ eid, ¬ Switches s e eid)
    (hStates : NotStopped s.machine s'.machine fun x => x = eid)
    (hThreads : ThreadsKept s.machine s'.machine fun _ => False) :
    SeatChange s e s' seat (update seat eid (.leaving h))
| switchOut (eid h : Nat) (p : Seat) (kind : LeaveKind) (regs : TrapRegs) (hEvent : e = .advance h)
    (hCall : s.calls h = .leaveSwitch eid kind regs)
    (hFrom : seat eid = .leaving h ∧ p = .empty ∨ ∃ k, seat eid = .handover h k ∧
          p = .entering k false)
    (hStates : NotStopped s.machine s'.machine fun _ => False)
    (hThreads : ThreadsKept s.machine s'.machine fun x => x = eid)
    (hSaved : (s'.machine.enclaves eid).thread = savedContext regs (s.machine.harts h).csrs
          kind.returnOnResume) :
    SeatChange s e s' seat (update seat eid p)

variable {P : Platform} {K : Crypto} {s' : System} {seat' : Nat → Seat}

variable {r : Progress}

/- The step leads to seats that differ in one change. -/
def Reseats (s : System) (e : Event) (s' : System) (seat : Nat → Seat) : Prop :=
  ∃ seat', SeatChange s e s' seat seat' ∧ Seated s' seat'

theorem not_switches (hQuiet : (s.calls h).Quiet) (eid : Nat) : ¬ Switches s (.advance h) eid := by
  rintro ⟨k, hEvent, hSwitch⟩
  cases hEvent
  rcases hSwitch with ⟨load, hIn⟩ | hOut
  · rw [hQuiet.entering] at hIn
    cases hIn
  · rw [hQuiet.leaving] at hOut
    cases hOut

theorem Seated.still {c : Call} (hSeated : Seated s seat) (hCall : s.calls h = c)
    (hOld : c.Quiet) (hNew : c'.Quiet) (hCpus : m'.cpus = s.machine.cpus)
    (hVector : ∀ k, (m'.harts k).mtvec = (s.machine.harts k).mtvec)
    (hContext : c'.InContext (s.machine.cpus h))
    (hSlots : ∀ e, (m'.enclaves e).state = (s.machine.enclaves e).state ∧ (m'.enclaves e).nThread =
      (s.machine.enclaves e).nThread ∧
      (m'.enclaves e).thread = (s.machine.enclaves e).thread)
    (hOwn : ∀ e, c'.owns = some e → (s.machine.enclaves e).state.Dead) :
    Reseats s (.advance h) (s.moved h m' c') seat := by
  subst hCall
  refine ⟨seat, .keep (not_switches hOld) ?_ ?_,
    hSeated.keep hCpus hVector hOld hNew hContext ?_ ?_ ?_⟩
  · intro e _ hStopped
    rw [← (hSlots e).1]
    exact hStopped
  · intro e _
    exact (hSlots e).2.2
  · intro e
    rw [(hSlots e).1, (hSlots e).2.1]
    exact hSeated.shows e
  · intro e hOwns
    rw [(hSlots e).1]
    exact hOwn e hOwns
  · intro e hDead
    rw [(hSlots e).1]
    exact hDead

----
-- Steps Of Destroys And Checks
----

theorem pmpUnsetGlobal_contexts {rid : Nat} {err : SmError}
    (hUnset : pmpUnsetGlobal P m rid = some (err, m')) :
    m'.cpus = m.cpus ∧ ∀ k, (m'.harts k).mtvec = (m.harts k).mtvec := by
  unfold pmpUnsetGlobal at hUnset
  split at hUnset
  · cases hUnset
    exact ⟨rfl, fun _ => rfl⟩
  · rcases Option.bind_eq_some_iff.mp hUnset with ⟨w, _, hEq⟩
    cases hEq
    exact ⟨rfl, fun _ => rfl⟩

section

variable (hSeated : Seated s seat)
include hSeated

theorem Seated.empty (hState : (s.machine.enclaves eid).state ≠ .running)
    (hNone : ∀ k, (s.calls k).leaving ≠ some eid) : seat eid = .empty := by
  rcases Seat.eq_of_shows (hSeated.shows eid) (.inl hState) with hEmpty | ⟨k, hSeat⟩
  · exact hEmpty
  · have hLeaver : (seat eid).leaver = some k := by
      rw [hSeat]
      rfl
    exact absurd ((hSeated.leaver k eid).mpr hLeaver) (hNone k)

theorem Seated.dead_empty (hDead : (s.machine.enclaves eid).state.Dead) : seat eid = .empty := by
  refine hSeated.empty hDead.idle.1 ?_
  intro k hLeaving
  have hLeaver := (hSeated.leaver k eid).mp hLeaving
  have hShows := hSeated.shows eid
  rcases Seat.eq_of_leaver hLeaver with hSeat | ⟨j, hSeat⟩
  · rw [hSeat] at hShows
    exact hDead.idle.2 hShows.1
  · rw [hSeat] at hShows
    exact hDead.idle.1 hShows.1

/- A destroy changes the state of one empty slot. -/
theorem Seated.retire {slot : Enclave} {c : Call} (hCall : s.calls h = c)
    (hOld : c.Quiet) (hNew : c'.Quiet) (hContext : c'.InContext (s.machine.cpus h))
    (hSeat : seat eid = .empty) (hDead : slot.state.Dead)
    (hThreads : slot.nThread = 0#32) (hThread : slot.thread = (s.machine.enclaves eid).thread)
    (hOwn : ∀ e, c'.owns = some e → e = eid) :
    Reseats s (.advance h) (s.moved h (s.machine.setEnclave eid slot) c') seat := by
  subst hCall
  refine ⟨seat, .keep (not_switches hOld) ?_ ?_,
    hSeated.keep rfl (fun _ => rfl) hOld hNew hContext ?_ ?_ ?_⟩
  · intro e _ hStopped
    by_cases hE : e = eid
    · subst hE
      simp only [moved, setEnclave, update_self] at hStopped
      exact absurd hStopped hDead.idle.2
    · simpa only [moved, setEnclave, update_of_ne hE] using hStopped
  · intro e _
    by_cases hE : e = eid
    · subst hE
      simpa only [moved, setEnclave, update_self] using hThread
    · simp only [moved, setEnclave, update_of_ne hE]
  · intro e
    by_cases hE : e = eid
    · subst hE
      simp only [setEnclave, update_self, hSeat]
      exact ⟨hDead.idle.1, hThreads⟩
    · simp only [setEnclave, update_of_ne hE]
      exact hSeated.shows e
  · intro e hOwns
    rw [hOwn e hOwns]
    simp only [setEnclave, update_self]
    exact hDead
  · intro e hOld
    by_cases hE : e = eid
    · subst hE
      simp only [setEnclave, update_self]
      exact hDead
    · simp only [setEnclave, update_of_ne hE]
      exact hOld

theorem Seated.no_threads (hSeat : seat eid = .empty) :
    (s.machine.enclaves eid).nThread = 0#32 := by
  have hShows := hSeated.shows eid
  rw [hSeat] at hShows
  exact hShows.2

theorem destroyCheck_reseats (hOk : SwitchDone P s (.advance h))
    (hCall : s.calls h = .destroyCheck eid)
    (hAdv : advance P K s.machine h (.destroyCheck eid) = some (r, m')) :
    Reseats s (.advance h) (s.moved h m' r.call) seat := by
  simp only [advance, destroyCheck] at hAdv
  by_cases hTest : destroyable P s.machine eid = true
  · simp only [hTest, if_true] at hAdv
    cases hAdv
    have hSeat : seat eid = .empty := by
      refine hSeated.empty ?_ ?_
      · intro hRunning
        simp [destroyable, hRunning, EnclaveState.code] at hTest
      · intro k
        exact hOk h k eid rfl (.inr ⟨hCall, hTest⟩)
    have hMachine : (s.machine.setState eid .destroying).setEnclave eid (platformDestroyEnclave
              ((s.machine.setState eid .destroying).enclaves eid)) =
          s.machine.setEnclave eid { s.machine.enclaves eid with state := .destroying } := by
      simp [Machine.setState, setEnclave, platformDestroyEnclave]
    simp only [hMachine]
    refine hSeated.retire hCall ⟨rfl, rfl⟩ ⟨rfl, rfl⟩
      trivial hSeat (.inl rfl) (hSeated.no_threads hSeat)
      rfl ?_
    intro e hOwns
    cases hOwns
    rfl
  · simp only [hTest, Bool.false_eq_true, if_false] at hAdv
    cases hAdv
    exact hSeated.still hCall ⟨rfl, rfl⟩ ⟨rfl, rfl⟩ rfl (fun _ => rfl) trivial
      (fun _ => ⟨rfl, rfl, rfl⟩) (fun _ => none_some)

theorem destroyClear_reseats {i : Nat} (hCall : s.calls h = .destroyClear eid i)
    (hAdv : advance P K s.machine h (.destroyClear eid i) = some (r, m')) :
    Reseats s (.advance h) (s.moved h m' r.call) seat := by
  have hDead := hSeated.destroyed h eid (by rw [hCall]; rfl)
  have hOwn : ∀ c' : Call, c'.owns = some eid → ∀ e, c'.owns = some e →
      (s.machine.enclaves e).state.Dead := by
    intro c' hMine e hOwns
    rw [hMine] at hOwns
    cases hOwns
    exact hDead
  simp only [advance] at hAdv
  split at hAdv
  · split at hAdv
    · cases hAdv
      exact hSeated.still hCall ⟨rfl, rfl⟩ ⟨rfl, rfl⟩ rfl (fun _ => rfl) trivial
        (fun _ => ⟨rfl, rfl, rfl⟩) (hOwn _ rfl)
    · rcases Option.bind_eq_some_iff.mp hAdv with ⟨⟨err, m₁⟩, hUnset, hNext⟩
      cases hNext
      have hSlots : m₁.enclaves = s.machine.enclaves := (pmpUnsetGlobal_frame hUnset).1
      rcases pmpUnsetGlobal_contexts hUnset with ⟨hCpus, hVector⟩
      exact hSeated.still hCall ⟨rfl, rfl⟩ ⟨rfl, rfl⟩ hCpus hVector trivial (fun _ => by
          rw [hSlots]
          exact ⟨rfl, rfl, rfl⟩) (hOwn _ rfl)
  · cases hAdv
    exact hSeated.still hCall ⟨rfl, rfl⟩ ⟨rfl, rfl⟩ rfl (fun _ => rfl) trivial
      (fun _ => ⟨rfl, rfl, rfl⟩) (hOwn _ rfl)

theorem destroy_still {c : Call} (hCall : s.calls h = c) (hOwns : c.owns = some eid)
    (hOwns' : c'.owns = some eid) (hOld : c.Quiet) (hNew : c'.Quiet)
    (hContext : c'.InContext (s.machine.cpus h)) (t : PmpTable) :
    Reseats s (.advance h) (s.moved h (s.machine.setPmp t) c') seat := by
  refine hSeated.still hCall hOld hNew rfl (fun _ => rfl) hContext
    (fun _ => ⟨rfl, rfl, rfl⟩) ?_
  intro e hE
  rw [hOwns'] at hE
  cases hE
  exact hSeated.destroyed h eid (by rw [hCall, hOwns])

theorem destroyFreeUtm_reseats (hCall : s.calls h = .destroyFreeUtm eid) :
    Reseats s (.advance h) (s.moved h (destroyUtm P s.machine eid) (.destroyReset eid)) seat := by
  have hTable : ∃ t, destroyUtm P s.machine eid = s.machine.setPmp t := by
    unfold destroyUtm
    split
    · exact ⟨_, rfl⟩
    · exact ⟨s.machine.pmp, rfl⟩
  rcases hTable with ⟨t, hTable⟩
  rw [hTable]
  exact destroy_still hSeated hCall rfl rfl ⟨rfl, rfl⟩ ⟨rfl, rfl⟩ (by trivial) t

theorem destroyReset_reseats (hCall : s.calls h = .destroyReset eid) :
    Reseats s (.advance h) (s.moved h (destroyMetadata P s.machine eid)
      (.destroyFreeEid eid)) seat := by
  have hDead := hSeated.destroyed h eid (by rw [hCall]; rfl)
  refine hSeated.retire hCall ⟨rfl, rfl⟩ ⟨rfl, rfl⟩ trivial (hSeated.dead_empty hDead) hDead rfl
    rfl ?_
  intro e hOwns
  cases hOwns
  rfl

theorem destroyFreeEid_reseats (hCall : s.calls h = .destroyFreeEid eid) :
    Reseats s (.advance h) (s.moved h (enclFreeEid s.machine eid) .idle) seat := by
  have hDead := hSeated.destroyed h eid (by rw [hCall]; rfl)
  have hSeat := hSeated.dead_empty hDead
  exact hSeated.retire hCall ⟨rfl, rfl⟩ ⟨rfl, rfl⟩ trivial hSeat (.inr rfl)
    (hSeated.no_threads hSeat) rfl nofun

end

----
-- Steps Of Entering And Leaving
----

theorem Seated.enterable (hSeated : Seated s seat) (hOk : Enterable P s.machine eid load) :
    (seat eid = .empty ∨ ∃ k, seat eid = .leaving k ∧ load = false) ∧
    (s.machine.enclaves eid).nThread = 0#32 ∧
    (s.machine.enclaves eid).state = if load then .fresh else .stopped := by
  have hShows := hSeated.shows eid
  have hGuard := hOk.2
  cases load with
  | true =>
    rw [hGuard] at hShows
    rcases Seat.eq_of_shows hShows (.inl nofun) with hSeat | ⟨k, hSeat⟩
    · rw [hSeat] at hShows
      exact ⟨.inl hSeat, hShows.2, hGuard⟩
    · rw [hSeat] at hShows
      cases hShows.1
  | false =>
    simp only [Bool.false_eq_true, if_false] at hGuard ⊢
    have hNotOne : (s.machine.enclaves eid).nThread ≠ 1#32 := by
      intro hOne
      rw [hOne] at hGuard
      exact absurd hGuard.2 (by decide)
    rcases Seat.eq_of_shows hShows (.inr hNotOne) with hSeat | ⟨k, hSeat⟩
    · rw [hSeat] at hShows
      refine ⟨.inl hSeat, hShows.2, ?_⟩
      rcases hGuard.1 with hRunning | hStopped
      · exact absurd hRunning hShows.1
      · exact hStopped
    · rw [hSeat] at hShows
      exact ⟨.inr ⟨k, hSeat, trivial⟩, hShows.2, hShows.1⟩

theorem claim_slot (hZero : (m.enclaves eid).nThread = 0#32) :
    ((m.claim eid).enclaves eid).state = .running ∧ ((m.claim eid).enclaves eid).nThread = 1#32 ∧
    NotStopped m (m.claim eid) (fun _ => False) ∧
    ThreadsKept m (m.claim eid) (fun _ => False) ∧
    ∀ e ≠ eid, (m.claim eid).enclaves e = m.enclaves e := by
  have hElse : ∀ e ≠ eid, (m.claim eid).enclaves e = m.enclaves e :=
    fun e hE => update_of_ne hE _ _
  refine ⟨?_, ?_, ?_, ?_, hElse⟩
  · simp [claim, setEnclave]
  · simp [claim, setEnclave, hZero]
  · intro e _ hStopped
    by_cases hE : e = eid
    · subst hE
      simp [claim, setEnclave] at hStopped
    · rw [hElse e hE] at hStopped
      exact hStopped
  · intro e _
    by_cases hE : e = eid
    · subst hE
      simp [claim, setEnclave]
    · rw [hElse e hE]

theorem Seated.admitted (hFree : seat eid = .empty ∨ ∃ k, seat eid = .leaving k ∧ load = false) :
    ∃ p : Seat,
    (seat eid = .empty ∧ p = .entering h load ∨ ∃ k, seat eid = .leaving k ∧ p = .handover k h) ∧
    (∀ k x, p.Holds k x ↔ (seat eid).Holds k x ∨ k = h ∧ x = .entering load) ∧
    p.Shows .running 1#32 := by
  rcases hFree with hSeat | ⟨k, hSeat, hLoad⟩
  · refine ⟨.entering h load, .inl ⟨hSeat, rfl⟩, ?_, rfl, rfl⟩
    intro k x
    rw [hSeat]
    cases x with
    | inside | entering l | leaving => simp [eq_comm]
  · refine ⟨.handover k h, .inr ⟨k, hSeat, rfl⟩, ?_, rfl, rfl⟩
    intro j x
    rw [hSeat, hLoad]
    cases x with
    | inside | entering l | leaving => simp [eq_comm]

section

variable (hSeated : Seated s seat)
include hSeated

/- A run or resume that is accepted takes the seat or waits for it. -/
theorem claim_reseats (hCall : s.calls h = .enterCheck eid load regs)
    (hOk : Enterable P s.machine eid load) :
    Reseats s (.advance h) (s.moved h (s.machine.claim eid) (.enterSwitch eid load regs)) seat := by
  have hQuiet : (s.calls h).Quiet := ⟨congrArg Call.entering hCall, congrArg Call.leaving hCall⟩
  have hHost := hSeated.context h
  rw [hCall] at hHost
  rcases hSeated.enterable hOk with ⟨hFree, hZero, hState⟩
  rcases claim_slot hZero with ⟨hRunning, hOne, hStates, hThreads, hElse⟩
  rcases Seated.admitted (h := h) hFree with ⟨p, hFrom, hAdds, hShows⟩
  have hNone := not_plays hQuiet hHost
  have hReady : load = false → (s.machine.enclaves eid).state = .stopped := by
    intro hLoad
    rw [hState, hLoad]
    rfl
  refine ⟨_, .admission eid h load p hFrom hReady (not_switches hQuiet) hStates hThreads,
    hSeated.move (fun _ _ => rfl) (fun e x hPlays => absurd hPlays (hNone e x)) ?_ ?_ ?_ hElse
      hSeated.vector hHost rfl ?_⟩
  · intro e x
    rw [hAdds h x, ← hSeated.part h eid x, or_iff_right (hNone eid x)]
    cases x with
    | inside => simpa [moved, claim, setEnclave] using not_inside hHost
    | entering l | leaving => simp [moved, Call.entering, Call.leaving, eq_comm]
  · intro k hK x
    rw [hAdds k x]
    exact or_iff_left fun hBoth => hK hBoth.1
  · rw [hRunning, hOne]
    exact hShows
  · rw [hState]
    cases load with
    | true | false => simp [EnclaveState.Dead]

/- The admitted hart switches into the enclave. -/
theorem enterSwitch_reseats (hOk : SwitchDone P s (.advance h))
    (hCall : s.calls h = .enterSwitch eid load regs)
    (hAdv : advance P K s.machine h (.enterSwitch eid load regs) = some (r, m')) :
    Reseats s (.advance h) (s.moved h m' r.call) seat := by
  have hEntering : (s.calls h).entering = some (eid, load) := congrArg Call.entering hCall
  have hHost := hSeated.context h
  rw [hCall] at hHost
  have hOnly : ∀ e x, s.Plays h e x → e = eid := by
    intro e x hPlays
    cases x with
    | inside => exact absurd hPlays (not_inside hHost)
    | entering l =>
      rw [System.Plays, hEntering] at hPlays
      cases hPlays
      rfl
    | leaving =>
      rw [System.Plays, hCall] at hPlays
      cases hPlays
  have hSeat : seat eid = .entering h load := by
    have hEntrant := (hSeated.part h eid (.entering load)).mp hEntering
    rcases Seat.eq_of_entrant hEntrant with hSeat | ⟨rfl, k, hSeat⟩
    · exact hSeat
    · have hOut := (hSeated.leaver k eid).mpr (by rw [hSeat]; rfl)
      exact absurd hOut (hOk h k eid rfl (.inl hEntering))
  have hShows := hSeated.shows eid
  rw [hSeat] at hShows
  rcases Option.bind_eq_some_iff.mp hAdv with ⟨⟨regs', m₁⟩, hSwitch, hEq⟩
  cases hEq
  have hSlots := (contextSwitchToEnclave_frame hSwitch).2
  rw [contextSwitchToEnclave_eq] at hSwitch
  rcases Option.map_eq_some_iff.mp hSwitch with ⟨c, _, hEq⟩
  cases hEq
  have hElse : ∀ e ≠ eid, (s.machine.entered h eid regs load c).enclaves e =
      s.machine.enclaves e :=
    fun e hE => update_of_ne hE _ _
  refine ⟨_, .switchIn eid h load rfl hEntering ?_ hSeat ?_ ?_,
    hSeated.move ?_ hOnly ?_ ?_ ?_ hElse ?_ trivial rfl ?_⟩
  · rintro e ⟨k, hEvent, ⟨l, hIn⟩ | hOut⟩
    · cases hEvent
      exact hOnly e (.entering l) hIn
    · cases hEvent
      exact hOnly e .leaving hOut
  · intro e _ hStopped
    rw [← (hSlots e).1]
    exact hStopped
  · intro e hE
    simp only [moved, hElse e hE]
  · intro k hK
    exact update_of_ne hK _ _
  · intro e x
    cases x with
    | inside => simp [moved, entered, eq_comm]
    | entering l | leaving => simp [moved, Progress.call, Call.entering, Call.leaving]
  · intro k hK x
    rw [hSeat]
    cases x with
    | inside | entering l | leaving => simp [Ne.symm hK]
  · simp only [entered, update_self]
    exact hShows
  · intro k
    by_cases hK : k = h
    · subst hK
      simp [entered]
    · simp only [entered, update_of_ne hK]
      exact hSeated.vector k
  · rw [hShows.1]
    simp [EnclaveState.Dead]

/- The hart inside the enclave asks to leave. -/
theorem unclaim_reseats (hCall : s.calls h = .leaveCheck kind regs)
    (hCpu : s.machine.cpus h = ⟨true, eid⟩) (hRunning : (s.machine.enclaves eid).state = .running) :
    Reseats s (.advance h) (s.moved h (s.machine.unclaim eid)
      (.leaveSwitch eid kind regs)) seat := by
  have hQuiet : (s.calls h).Quiet := ⟨congrArg Call.entering hCall, congrArg Call.leaving hCall⟩
  have hSeat : seat eid = .inside h := by
    have hIn := (hSeated.part h eid .inside).mp hCpu
    rcases Seat.eq_of_insider hIn with hSeat | hLeaver
    · exact hSeat
    · have hLeaving := (hSeated.leaver h eid).mpr hLeaver
      rw [hQuiet.leaving] at hLeaving
      cases hLeaving
  have hShows := hSeated.shows eid
  rw [hSeat] at hShows
  have hElse : ∀ e ≠ eid, (s.machine.unclaim eid).enclaves e = s.machine.enclaves e :=
    fun e hE => update_of_ne hE _ _
  refine ⟨_, .request eid h hSeat (not_switches hQuiet) ?_ ?_,
    hSeated.move (fun _ _ => rfl) ?_ ?_ ?_ ?_ hElse hSeated.vector trivial rfl ?_⟩
  · intro e hE hStopped
    simpa only [moved, hElse e hE] using hStopped
  · intro e _
    by_cases hE : e = eid
    · subst hE
      simp [moved, unclaim, setEnclave]
    · simp only [moved, hElse e hE]
  · intro e x hPlays
    cases x with
    | inside =>
      rw [System.Plays, hCpu] at hPlays
      cases hPlays
      rfl
    | entering l | leaving => simp [hQuiet.entering, hQuiet.leaving] at hPlays
  · intro e x
    cases x with
    | inside => simp [moved, unclaim, setEnclave, hCpu, eq_comm]
    | entering l | leaving => simp [moved, Call.entering, Call.leaving, eq_comm]
  · intro k hK x
    rw [hSeat]
    cases x with
    | inside | entering l | leaving => simp [Ne.symm hK]
  · simp only [unclaim, setEnclave, update_self, hShows.2]
    exact ⟨rfl, rfl⟩
  · rw [hRunning]
    simp [EnclaveState.Dead]

/- The hart that leaves gives up both parts. -/
theorem Seated.vacated (hLeaving : (s.calls h).leaving = some eid) : ∃ p : Seat,
    (seat eid = .leaving h ∧ p = .empty ∨ ∃ k, seat eid = .handover h k ∧ p = .entering k false) ∧
    (∀ k x, p.Holds k x ↔ (seat eid).Holds k x ∧ x ≠ .inside ∧ x ≠ .leaving) ∧
    (seat eid).insider = some h ∧ (seat eid).leaver = some h ∧
    p.Shows (s.machine.enclaves eid).state (s.machine.enclaves eid).nThread := by
  have hLeaver := (hSeated.leaver h eid).mp hLeaving
  have hShows := hSeated.shows eid
  rcases Seat.eq_of_leaver hLeaver with hSeat | ⟨k, hSeat⟩
  · rw [hSeat] at hShows ⊢
    refine ⟨.empty, .inl ⟨rfl, rfl⟩, ?_, rfl, rfl, ?_, hShows.2⟩
    · intro k x
      cases x with
      | inside | entering l | leaving => simp
    · rw [hShows.1]
      decide
  · rw [hSeat] at hShows ⊢
    refine ⟨.entering k false, .inr ⟨k, rfl, rfl⟩, ?_, rfl, rfl, hShows⟩
    intro j x
    cases x with
    | inside | entering l | leaving => simp

/- The leaving hart switches back to the host. -/
theorem leaveSwitch_reseats (hCall : s.calls h = .leaveSwitch eid kind regs)
    (hAdv : advance P K s.machine h (.leaveSwitch eid kind regs) = some (r, m')) :
    Reseats s (.advance h) (s.moved h m' r.call) seat := by
  have hEntering : (s.calls h).entering = none := congrArg Call.entering hCall
  have hLeaving : (s.calls h).leaving = some eid := congrArg Call.leaving hCall
  rcases hSeated.vacated hLeaving with ⟨p, hFrom, hGives, hInsider, hLeaver, hShows⟩
  have hCpu := (hSeated.part h eid .inside).mpr hInsider
  rcases Option.bind_eq_some_iff.mp hAdv with ⟨⟨regs', m₁⟩, hSwitch, hEq⟩
  cases hEq
  have hSlots := (contextSwitchToHost_frame hSwitch).2
  rw [contextSwitchToHost_eq] at hSwitch
  rcases Option.map_eq_some_iff.mp hSwitch with ⟨c, _, hEq⟩
  cases hEq
  have hElse : ∀ e ≠ eid, (s.machine.left h eid regs kind.returnOnResume c).enclaves e =
      s.machine.enclaves e :=
    fun e hE => update_of_ne hE _ _
  refine ⟨_, .switchOut eid h p kind regs rfl hCall hFrom ?_ ?_ ?_,
    hSeated.move ?_ ?_ ?_ ?_ ?_ hElse ?_ trivial rfl ?_⟩
  · intro e _ hStopped
    rw [← (hSlots e).1]
    exact hStopped
  · intro e hE
    simp only [moved, hElse e hE]
  · simp only [moved, left, update_self, swapContext_eq]
    rfl
  · intro k hK
    exact update_of_ne hK _ _
  · intro e x hPlays
    cases x with
    | inside =>
      rw [System.Plays, hCpu] at hPlays
      cases hPlays
      rfl
    | entering l =>
      rw [System.Plays, hEntering] at hPlays
      cases hPlays
    | leaving =>
      rw [System.Plays, hLeaving] at hPlays
      cases hPlays
      rfl
  · intro e x
    rw [hGives h x, ← hSeated.part h eid x]
    cases x with
    | inside | entering l | leaving =>
      simp [moved, left, Progress.call, Call.entering, Call.leaving, hCall]
  · intro k hK x
    rw [hGives k x]
    cases x with
    | inside | entering l | leaving =>
      simp only [Seat.Holds, hInsider, hLeaver]
      simp [Ne.symm hK]
  · rw [(hSlots eid).1]
    simp only [left, update_self]
    exact hShows
  · intro k
    by_cases hK : k = h
    · subst hK
      simp [left]
    · simp only [left, update_of_ne hK]
      exact hSeated.vector k
  · -- a hart is still on its way out
    intro hDead
    rw [hSeated.dead_empty hDead] at hLeaver
    cases hLeaver

theorem enterCheck_reseats (hCall : s.calls h = .enterCheck eid load regs)
    (hAdv : advance P K s.machine h (.enterCheck eid load regs) = some (r, m')) :
    Reseats s (.advance h) (s.moved h m' r.call) seat := by
  simp only [advance] at hAdv
  rcases hSection : enterSection P s.machine eid load with ⟨ok, m₁⟩
  rw [hSection] at hAdv
  rcases enterSection_cases hSection with ⟨hFalse, hSame⟩ | ⟨hTrue, hOk, hNew⟩
  · subst hFalse hSame
    cases hAdv
    exact hSeated.still hCall ⟨rfl, rfl⟩ ⟨rfl, rfl⟩ rfl (fun _ => rfl) trivial
      (fun _ => ⟨rfl, rfl, rfl⟩) (fun _ => none_some)
  · subst hTrue hNew
    cases hAdv
    exact claim_reseats hSeated hCall hOk

theorem leaveCheck_reseats (hCall : s.calls h = .leaveCheck kind regs)
    (hAdv : advance P K s.machine h (.leaveCheck kind regs) = some (r, m')) :
    Reseats s (.advance h) (s.moved h m' r.call) seat := by
  have hIn := hSeated.context h
  rw [hCall] at hIn
  simp only [advance] at hAdv
  rcases hCheck : leaveCheck s.machine (s.machine.cpus h).eid with ⟨ok, m₁⟩
  rw [hCheck] at hAdv
  rcases leaveCheck_cases hCheck with ⟨hFalse, hSame⟩ | ⟨hTrue, hRunning, hNew⟩
  · subst hFalse hSame
    cases hAdv
    exact hSeated.still hCall ⟨rfl, rfl⟩ ⟨rfl, rfl⟩ rfl (fun _ => rfl) trivial
      (fun _ => ⟨rfl, rfl, rfl⟩) (fun _ => none_some)
  · subst hTrue hNew
    cases hAdv
    refine unclaim_reseats hSeated hCall ?_ hRunning
    cases hCpu : s.machine.cpus h with
    | mk isEnclave eid =>
      rw [hCpu] at hIn
      cases hIn
      rfl

/- Every step of a call changes the seats in one of the known ways. -/
theorem advance_reseats (hOk : SwitchDone P s (.advance h))
    (hAdv : advance P K s.machine h (s.calls h) = some (r, m')) :
    Reseats s (.advance h) (s.moved h m' r.call) seat := by
  have hContext := hSeated.context h
  generalize hCall : s.calls h = c at hAdv hContext
  cases c with
  | idle => cases hAdv
  | destroyCheck eid => exact destroyCheck_reseats hSeated hOk hCall hAdv
  | destroyClear eid i => exact destroyClear_reseats hSeated hCall hAdv
  | destroyFree eid i rid =>
    cases hAdv
    exact destroy_still hSeated hCall rfl rfl ⟨rfl, rfl⟩ ⟨rfl, rfl⟩ (by trivial) _
  | destroyFreeUtm eid =>
    cases hAdv
    exact destroyFreeUtm_reseats hSeated hCall
  | destroyReset eid =>
    cases hAdv
    exact destroyReset_reseats hSeated hCall
  | destroyFreeEid eid =>
    cases hAdv
    exact destroyFreeEid_reseats hSeated hCall
  | enterCheck eid load regs => exact enterCheck_reseats hSeated hCall hAdv
  | enterSwitch eid load regs => exact enterSwitch_reseats hSeated hOk hCall hAdv
  | leaveCheck kind regs => exact leaveCheck_reseats hSeated hCall hAdv
  | leaveSwitch eid kind regs => exact leaveSwitch_reseats hSeated hCall hAdv
  | _ => cases hContext

end

/- The calls of the host are made in host context, those of an enclave in its context. -/
theorem sbiCall_context {funcid : Word} (hAllowed : sbiProhibited m a.hart funcid = false)
    (hNoCreate : funcid ≠ sbiSmCreateEnclave) : (sbiCall a funcid).InContext (m.cpus a.hart) := by
  unfold sbiCall
  rw [if_neg hNoCreate]
  split
  · trivial
  split
  · rename_i hRun
    rw [hRun] at hAllowed
    exact hAllowed
  split
  · rename_i hResume
    rw [hResume] at hAllowed
    exact hAllowed
  split
  · rename_i hStop
    rw [hStop] at hAllowed
    simpa [sbiProhibited, sbiSmStopEnclave, fidRangeHost,
      fidRangeEnclave, Call.InContext] using hAllowed
  split
  · rename_i hExit
    rw [hExit] at hAllowed
    simpa [sbiProhibited, sbiSmExitEnclave, fidRangeHost,
      fidRangeEnclave, Call.InContext] using hAllowed
  · trivial

theorem dispatch_context
    (hVector : (m.harts a.hart).mtvec = .enclave ↔ (m.cpus a.hart).isEnclave = true)
    (hNoCreate : a.trap ≠ .ecall sbiSmCreateEnclave) :
    (dispatch m a).InContext (m.cpus a.hart) := by
  unfold dispatch
  cases hTrap : a.trap with
  | ecall funcid =>
    simp only
    split
    · trivial
    split
    · trivial
    · rename_i hAllowed
      refine sbiCall_context (Bool.eq_false_iff.mpr hAllowed) ?_
      intro hEq
      rw [hTrap, hEq] at hNoCreate
      exact hNoCreate rfl
  | interrupt | failure rc =>
    simp only
    split
    · rename_i hEnclave
      exact hVector.mp hEnclave
    · trivial

theorem dispatch_quiet (m : Machine) (a : Arrival) : (dispatch m a).Quiet := by
  unfold dispatch sbiCall
  repeat' split
  all_goals exact ⟨rfl, rfl⟩

theorem start_reseats (hSeated : Seated s seat) (hIdle : s.calls a.hart = .idle)
    (hNoCreate : a.trap ≠ .ecall sbiSmCreateEnclave) :
    Reseats s (.start a) (s.moved a.hart (s.machine.arrive a)
      (dispatch (s.machine.arrive a) a)) seat := by
  refine ⟨seat, .keep ?_ (fun _ _ hStopped => hStopped) (fun _ _ => rfl),
    hSeated.keep rfl (arrive_vector s.machine a) (by rw [hIdle]; exact ⟨rfl, rfl⟩)
      (dispatch_quiet _ a) (dispatch_context ?_ hNoCreate) hSeated.shows ?_
      (fun _ hDead => hDead)⟩
  · rintro eid ⟨k, hEvent, _⟩
    cases hEvent
  · rw [arrive_vector]
    exact hSeated.vector a.hart
  · intro eid hOwns
    rw [dispatch_owns] at hOwns
    cases hOwns

theorem step_seated {e : Event} (hSeated : Seated s seat) (hNoCreate : e.asksCreate = false)
    (hOk : SwitchDone P s e) (hStep : System.step P K s e = some s') : Reseats s e s' seat := by
  cases e with
  | start a =>
    simp only [System.step] at hStep
    split at hStep
    · rename_i hIdle
      cases hStep
      exact start_reseats hSeated hIdle (of_decide_eq_false hNoCreate)
    · cases hStep
  | advance h =>
    rcases Option.map_eq_some_iff.mp hStep with ⟨⟨r, m'⟩, hAdv, hEq⟩
    cases hEq
    exact advance_reseats hSeated hOk hAdv

end Keystone
