import Keystone.Sm.Interleaving.Bookkeeping
import Keystone.Sm.Lifecycle

/-
  Exactly-once destruction under interleaving.

  The state test of a destroy also admits slots that another call owns. Slots and region ids are
  given up exactly once in the interleavings in which no destroy makes its test in such a state, and
  in no others.
-/

----
-- Exactly Once
----

namespace Keystone

open Runs (Always Guarded exec)
open Ledger
open Keystone.System (quiet step)

variable {P : Platform} {K : Crypto} {s : System} {A : Nat → Phase Nat Nat} {eid h : Nat}

/- No two harts own one slot. -/
def SoleOwner (s : System) : Prop :=
  ∀ eid h k, (s.calls h).owns = some eid → (s.calls k).owns = some eid → h = k

/- A region id is freed once before it is allocated again. -/
def FreedOnce (P : Platform) (K : Crypto) (s₀ : System) (es : List Event) : Prop :=
  ∀ rid s₁ e s₂ mid s₃ f s₄, Runs.Spans (step P K) s₀ es s₁ e s₂ mid s₃ f →
      eventLabel P s₁ e = .release rid → Guarded (step P K)
            (fun s d => eventLabel P s d ≠ .take rid)
            s₂ mid →
          step P K s₃ f = some s₄ → eventLabel P s₃ f ≠ .release rid

/- From the state test of a destroy to any later act of it, the id is not allocated, so that the
   destroy acts on the enclave it has tested. -/
def DestroysOwn (P : Platform) (K : Crypto) (s₀ : System) (es : List Event) : Prop :=
  ∀ eid h s₁ s₂ mid s₃ f, Runs.Spans (step P K) s₀ es s₁ (.advance h) s₂ mid s₃ f →
      eventLabel P s₁ (.advance h) = .retire eid → Always (step P K)
            (fun s => (s.calls h).owns = some eid) s₂ mid →
          Guarded (step P K) (fun s d => eventLabel P s d ≠ .alloc eid) s₂ mid

/- Slots have one owner at a time, region ids are freed once before they are allocated again, and a
   destroy acts on the enclave it has tested. -/
structure ExactlyOnce (P : Platform) (K : Crypto) (s₀ : System) (es : List Event) : Prop where
  owner : Always (step P K) SoleOwner s₀ es
  freed : FreedOnce P K s₀ es
  own : DestroysOwn P K s₀ es

theorem Accounts.soleOwner (hAcc : Accounts s A) : SoleOwner s := by
  intro eid h k hOwns hOwns'
  have hAgent := hAcc.agent hOwns
  rw [hAcc.agent hOwns'] at hAgent
  exact (Option.some.inj hAgent).symm

theorem books_smInit {boot : Nat → Hart} {mem : Memory} {m₀ : Machine}
    (hInit : smInit P boot mem = some m₀) : Books P (quiet m₀) (fun _ => .free) := by
  have hInv := regionInv_smInit hInit
  have hState : ∀ eid, (m₀.enclaves eid).state = .invalid := by
    intro eid
    rcases smInit_cases hInit with ⟨_, _, _, hSlots, _⟩
    rw [hSlots]
    rfl
  refine ⟨⟨?_, hState, ?_, fun _ => trivial, ?_, ?_, apart_free⟩, fun _ _ => rfl⟩
  · intro h eid p
    constructor
    · intro hPhase
      cases hPhase
    · rintro ⟨hEq, hAgent⟩
      rw [← hEq] at hAgent
      cases hAgent
  · intro eid held hEq
    cases hEq
  · intro eid i _
    exact hInv.unused eid (hState eid) i
  · intro eid rid hMem
    cases hMem

theorem Books.busy_owned (hBooks : Books P s A)
    (hBusy : (s.machine.enclaves eid).state = .allocated ∨
      (s.machine.enclaves eid).state = .destroying) :
    eid < P.enclMax ∧ ∃ k, (s.calls k).owns = some eid := by
  have hShows := hBooks.1.state eid
  cases hAt : A eid with
  | free =>
    rw [hAt] at hShows
    rw [hShows] at hBusy
    rcases hBusy with hEq | hEq <;> cases hEq
  | live held =>
    rw [hAt] at hShows
    rcases hShows with hEq | hEq | hEq <;> rw [hEq] at hBusy <;>
      rcases hBusy with hEq' | hEq' <;> cases hEq'
  | creating k held | destroying k held =>
    refine ⟨?_, k, hBooks.1.owns (by rw [hAt]; rfl)⟩
    by_contra hLe
    rw [hBooks.2 eid (Nat.not_lt.mp hLe)] at hAt
    cases hAt

theorem busy_destroyable {m : Machine} (hLt : eid < P.enclMax)
    (hBusy : (m.enclaves eid).state = .allocated ∨ (m.enclaves eid).state = .destroying) :
    destroyable P m eid = true := by
  rcases hBusy with hEq | hEq
  · simp [destroyable, enclaveExists, hLt, hEq, EnclaveState.code]
  · simp [destroyable, enclaveExists, hLt, hEq, EnclaveState.code]

theorem destroyable_owned (hCall : s.calls h = .destroyCheck eid)
    (hTest : destroyable P s.machine eid = true) : ∃ s', step P K s (.advance h) = some s' ∧
    (s'.calls h).owns = some eid ∧ ∀ k ≠ h, s'.calls k = s.calls k := by
  have hStep : advance P K s.machine h (s.calls h) = some (.goesTo (.destroyClear eid 0),
      (s.machine.setState eid .destroying).setEnclave eid (platformDestroyEnclave
      ((s.machine.setState eid .destroying).enclaves eid))) := by
    simp only [hCall, advance, destroyCheck, hTest, if_true]
  refine ⟨_, Option.map_eq_some_iff.mpr ⟨_, hStep, rfl⟩, ?_, ?_⟩
  · simp only [Function.update_self]
    rfl
  · intro k hK
    exact Function.update_of_ne hK _ _

theorem busy_second_owner (hBooks : Books P s A) (hCall : s.calls h = .destroyCheck eid)
    (hBusy : (s.machine.enclaves eid).state = .allocated ∨
      (s.machine.enclaves eid).state = .destroying) :
    ∃ s', step P K s (.advance h) = some s' ∧ ¬ SoleOwner s' := by
  rcases hBooks.busy_owned hBusy with ⟨hLt, k, hOwns⟩
  rcases destroyable_owned (K := K) hCall (busy_destroyable hLt hBusy) with
    ⟨s', hStep, hOwner, hOthers⟩
  have hNe : k ≠ h := by
    intro hEq
    rw [hEq, hCall] at hOwns
    cases hOwns
  refine ⟨s', hStep, ?_⟩
  intro hSole
  refine hNe (hSole eid k h ?_ hOwner)
  rw [hOthers k hNe]
  exact hOwns

theorem owned_not_alloc {e : Event} (hAcc : Accounts s A) (hOwns : (s.calls h).owns = some eid) :
    eventLabel P s e ≠ .alloc eid := by
  intro hLabel
  have hFree := hAcc.free_of_invalid (alloc_label hLabel).2
  have hAgent := hAcc.agent hOwns
  rw [hFree] at hAgent
  cases hAgent

/- In an interleaving, slots and regions are given up exactly once if and only if no destroy makes
   its state test while another call owns the slot. -/
theorem exactlyOnce_iff (boot : Nat → Hart) (mem : Memory) (m₀ : Machine) (es : List Event)
    (hInit : smInit P boot mem = some m₀) :
    ExactlyOnce P K (quiet m₀) es ↔ Guarded (step P K) NotBusy
    (quiet m₀) es := by
  have hSim := simulates P K
  have hStart : ∃ A, Books P (quiet m₀) A := ⟨_, books_smInit hInit⟩
  constructor
  · intro hOnce
    by_contra hFails
    rcases Guarded.first_failure hFails with ⟨pre, e, post, s, hSplit, hExec, hBefore, hBusy⟩
    rcases hSim.run hStart hBefore hExec with ⟨A, hBooks⟩
    simp only [NotBusy, not_forall] at hBusy
    rcases hBusy with ⟨h, eid, hEvent, hCall, hState⟩
    subst hEvent
    have hOwned : (s.machine.enclaves eid).state = .allocated ∨
        (s.machine.enclaves eid).state = .destroying := by
      by_contra hNeither
      exact hState (not_or.mp hNeither)
    rcases busy_second_owner (K := K) hBooks hCall hOwned with ⟨s', hStep, hTwo⟩
    refine hTwo (hOnce.owner (pre ++ [.advance h]) post s' ?_ ?_)
    · rw [hSplit, List.append_assoc]
      rfl
    · exact (Runs.exec_append_iff _).mpr ⟨s, hExec, (Runs.exec_singleton_iff _).mpr hStep⟩
  · intro hOk
    refine ⟨?_, ?_, ?_⟩
    · intro pre post s hSplit hExec
      rw [hSplit] at hOk
      rcases hSim.run hStart hOk.initial hExec with ⟨A, hBooks⟩
      exact hBooks.1.soleOwner
    · intro rid s₁ e s₂ mid s₃ f s₄ hSpan hFirst hMid hLast
      exact hSim.released_once hStart hOk hSpan hFirst hMid hLast
    · intro eid h s₁ s₂ mid s₃ f hSpan _ hOwns
      rcases hSpan.guarded hOk with ⟨pre, hPre, hOkPre, hOkFirst, hOkMid, _⟩
      rcases hSim.run hStart hOkPre hPre with ⟨A₁, hA₁⟩
      rcases hSim.next s₁ _ s₂ A₁ hA₁ hOkFirst hSpan.first with ⟨A₂, _, hA₂⟩
      intro xs d ys s hSplit hExec
      rw [hSplit] at hOkMid
      rcases hSim.run ⟨A₂, hA₂⟩ hOkMid.initial hExec with ⟨A, hBooks⟩
      exact owned_not_alloc hBooks.1 (hOwns xs (d :: ys) s hSplit hExec)

----
-- Sample Interleavings
----

/- Run the system from initialization on clear registers. -/
def sampleSystem (es : List Event) : Option System :=
  sampleInit.bind fun m =>
    exec (step .generic sampleCrypto) (quiet m) es

/- Hart `h` asks for an enclave. -/
def startCreate (h : Nat) : Event := .start (sampleTrap h (.ecall sbiSmCreateEnclave) 0)

/- Hart `h` asks for the destruction of enclave 0. -/
def startDestroy (h : Nat) : Event := .start (sampleTrap h (.ecall sbiSmDestroyEnclave) 0)

/- Two creates of overlapping enclaves: the second one gives its slot back. -/
def twoCreates : List Event :=
  [startCreate 0, startCreate 1, .advance 0, .advance 1,
    .advance 0, .advance 1, .advance 0, .advance 1,
    .advance 0, .advance 0]

theorem exactlyOnce_iff_twoCreates : ∃ m₀ s, sampleInit = some m₀ ∧
    exec (step .generic sampleCrypto) (quiet m₀) twoCreates = some s ∧
    (s.machine.enclaves 0).state = .fresh ∧
    (ExactlyOnce .generic sampleCrypto (quiet m₀) twoCreates ↔
      Guarded (step .generic sampleCrypto)
      NotBusy (quiet m₀) twoCreates) := by
  have hFresh : (sampleSystem twoCreates).map (fun s => (s.machine.enclaves 0).state) =
        some .fresh := by
    decide +kernel
  rcases Option.map_eq_some_iff.mp hFresh with ⟨s, hRun, hState⟩
  rcases Option.bind_eq_some_iff.mp hRun with ⟨m₀, hInit, hExec⟩
  exact ⟨m₀, s, hInit, hExec, hState, exactlyOnce_iff sampleBoot (fun _ => 0) m₀ twoCreates hInit⟩

/- Harts 0 and 1 destroy the enclave that hart 0 created; both pass the state test, and both are
   about to free its private region. -/
def twoDestroys : List Event :=
  [startCreate 0, .advance 0, .advance 0, .advance 0, .advance 0, .advance 0,
    startDestroy 0, startDestroy 1, .advance 0, .advance 1,
    .advance 0, .advance 1]

/- Both harts own the slot, and both free one region. -/
theorem exactlyOnce_fails_on_twoDestroys : ∃ m₀ s,
    sampleInit = some m₀ ∧
    exec (step .generic sampleCrypto) (quiet m₀) twoDestroys = some s ∧
    (s.calls 0).owns = some 0 ∧
    (s.calls 1).owns = some 0 ∧
    ¬ SoleOwner s ∧
    ¬ FreedOnce .generic sampleCrypto (quiet m₀)
    (twoDestroys ++ [.advance 0, .advance 1]) := by
  have hBoth : (sampleSystem twoDestroys).map (fun s => ((s.calls 0).owns, (s.calls 1).owns,
            eventLabel .generic s (.advance 0))) =
        some (some 0, some 0, .release 2) := by
    decide +kernel
  have hAgain : (sampleSystem (twoDestroys ++ [.advance 0])).map
          (fun s => (eventLabel .generic s (.advance 1), (step .generic sampleCrypto s
              (.advance 1)).isSome)) =
        some (.release 2, true) := by
    decide +kernel
  rcases Option.map_eq_some_iff.mp hBoth with ⟨s, hRun, hEq⟩
  simp only [Prod.mk.injEq] at hEq
  rcases hEq with ⟨hZero, hOne, hFirst⟩
  rcases Option.map_eq_some_iff.mp hAgain with ⟨s₂, hRun₂, hEq⟩
  simp only [Prod.mk.injEq] at hEq
  rcases hEq with ⟨hSecond, hSteps⟩
  rcases Option.isSome_iff_exists.mp hSteps with ⟨s₃, hLast⟩
  rcases Option.bind_eq_some_iff.mp hRun with ⟨m₀, hInit, hExec⟩
  refine ⟨m₀, s, hInit, hExec, hZero, hOne, ?_, ?_⟩
  · intro hSole
    exact absurd (hSole 0 0 1 hZero hOne) (by decide)
  · rw [sampleSystem, hInit, Option.bind_some] at hRun₂
    rcases (Runs.exec_append_iff _).mp hRun₂ with ⟨s', hExec', hStep⟩
    rw [hExec] at hExec'
    cases hExec'
    intro hOnce
    exact hOnce 2 s (.advance 0) s₂ [] s₂ (.advance 1) s₃ ⟨⟨twoDestroys, [], rfl, hExec⟩,
        (Runs.exec_singleton_iff _).mp hStep, rfl⟩
      hFirst (Runs.guarded_nil _ _) hLast hSecond

end Keystone
