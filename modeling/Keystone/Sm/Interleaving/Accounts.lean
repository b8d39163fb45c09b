import Keystone.Lib.Ledger
import Keystone.Sm.Interleaving.Model

/-
  The ledger behind an interleaving of creates and destroys.

  A create owns its slot from the allocation of the id to the publication of the enclave, a destroy
  from its state test to the release of the id. The ledger records for each slot its owner and the
  region ids it holds.
-/

----
-- Owners And Labels
----

namespace Keystone

open Function (update update_of_ne update_self)
open Ledger

variable {eid : Nat} {p : Phase Nat Nat} {c' : Call}

/- The slot that a call owns past its state check. -/
def Call.owns : Call → Option Nat
| .createEpm _ eid => some eid
| .createUtm _ eid _ => some eid
| .createSetup _ eid _ _ => some eid
| .createPublish eid _ _ => some eid
| .createUnset eid _ _ _ => some eid
| .createFreeShared eid _ _ _ => some eid
| .createFreeRegion eid _ _ => some eid
| .createFreeEid eid _ => some eid
| .destroyClear eid _ => some eid
| .destroyFree eid _ _ => some eid
| .destroyFreeUtm eid => some eid
| .destroyReset eid => some eid
| .destroyFreeEid eid => some eid
| _ => none

/- A region initialization that returns an id. -/
def initLabel : Option RegionInitRet → Label Nat Nat
| some r =>
  if r.ret = .success then
    match r.rid with
    | some rid => .take rid
    | none => .silent
  else .silent
| none => .silent

variable (h : Nat) (P : Platform) (m : Machine)

/- What the next step of a call does to ids: `encl_alloc_eid` returns one, `encl_free_eid` gives one
   up, a region id is returned by `pmp_region_init_atomic` or passed to `pmp_region_free_atomic`, or
   the state test of a destroy succeeds. -/
def callLabel : Call → Label Nat Nat
| .createAlloc args =>
  if isCreateArgsValid args then
    match (enclAllocEid P m).1 with
    | some eid => .alloc eid
    | none => .silent
  else .silent
| .createEpm args _ =>
  initLabel (pmpRegionInit P m.pmp args.epmRegion.paddr args.epmRegion.size .any false)
| .createUtm args _ _ =>
  initLabel (pmpRegionInit P m.pmp args.utmRegion.paddr args.utmRegion.size .bottom false)
| .createFreeShared _ _ sharedRegion _ => .release sharedRegion
| .createFreeRegion _ region _ => .release region
| .createFreeEid eid _ => .free eid
| .destroyCheck eid => if destroyable P m eid then .retire eid else .silent
| .destroyFree _ _ rid => .release rid
| .destroyFreeUtm eid =>
  match getEnclaveRegionIndex P m eid .utm with
  | some i => .release ((m.enclaves eid).regions i).pmpRid
  | none => .silent
| .destroyFreeEid eid => .free eid
| _ => .silent

def eventLabel (s : System) : Event → Label Nat Nat
| .start _ => .silent
| .advance h => callLabel P s.machine (s.calls h)

/- No destroy makes its state test of a slot that a create has allocated or that a destroy is
   tearing down. -/
def NotBusy (s : System) (e : Event) : Prop :=
  ∀ h eid, e = .advance h → s.calls h = .destroyCheck eid →
        (s.machine.enclaves eid).state ≠ .allocated ∧ (s.machine.enclaves eid).state ≠ .destroying

----
-- Representation
----

/- The phase in which a call of hart `h` keeps its slot. -/
def Call.phase : Call → Option (Nat × Phase Nat Nat)
| .createEpm _ eid => some (eid, .creating h [])
| .createUtm _ eid region => some (eid, .creating h [region])
| .createSetup _ eid region sharedRegion => some (eid, .creating h [region, sharedRegion])
| .createPublish eid region sharedRegion => some (eid, .creating h [region, sharedRegion])
| .createUnset eid region sharedRegion _ => some (eid, .creating h [region, sharedRegion])
| .createFreeShared eid region sharedRegion _ => some (eid, .creating h [region, sharedRegion])
| .createFreeRegion eid region _ => some (eid, .creating h [region])
| .createFreeEid eid _ => some (eid, .creating h [])
| .destroyClear eid i =>
  some (eid, .destroying h (if i = 0 then
      [Owner.rid m (.epm eid), Owner.rid m (.utm eid)]
    else [Owner.rid m (.utm eid)]))
| .destroyFree eid _ rid => some (eid, .destroying h [rid, Owner.rid m (.utm eid)])
| .destroyFreeUtm eid => some (eid, .destroying h [Owner.rid m (.utm eid)])
| .destroyReset eid => some (eid, .destroying h [])
| .destroyFreeEid eid => some (eid, .destroying h [])
| _ => none

/- What a call relies on in its slot. -/
def Call.Settled : Call → Prop
| .createPublish eid region sharedRegion =>
  SlotShape (m.enclaves eid).regions ∧ region = Owner.rid m (.epm eid) ∧
    sharedRegion = Owner.rid m (.utm eid)
| .destroyClear eid _ => SlotShape (m.enclaves eid).regions
| .destroyFree eid _ _ => SlotShape (m.enclaves eid).regions
| .destroyFreeUtm eid => SlotShape (m.enclaves eid).regions
| _ => True

/- The state of a slot in each phase. -/
def PhaseShows : Phase Nat Nat → EnclaveState → Prop
| .free, state => state = .invalid
| .creating _ _, state => state = .allocated
| .live _, state => state = .fresh ∨ state = .stopped ∨ state = .running
| .destroying _ _, state => state = .destroying

/- The ledger behind a state of the system. -/
structure Accounts (s : System) (A : Nat → Phase Nat Nat) : Prop where
  owner : ∀ h eid p, (s.calls h).phase h s.machine = some (eid, p) ↔ A eid = p ∧ p.agent = some h
  state : ∀ eid, PhaseShows (A eid) (s.machine.enclaves eid).state
  live : ∀ eid held, A eid = .live held → SlotShape (s.machine.enclaves eid).regions ∧ held =
          [Owner.rid s.machine (.epm eid), Owner.rid s.machine (.utm eid)]
  settled : ∀ h, (s.calls h).Settled s.machine
  rest : ∀ eid i, 2 ≤ i → ((s.machine.enclaves eid).regions i).type = .invalid
  valid : ∀ eid rid, rid ∈ (A eid).held → isPmpRegionValid s.machine.pmp rid = true
  apart : Apart A

variable {s : System} {A : Nat → Phase Nat Nat} {m m' : Machine} {c : Call} {h : Nat}

theorem Call.owns_of_phase (hPhase : c.phase h m = some (eid, p)) : c.owns = some eid := by
  cases c with
  | _ => first | cases hPhase; rfl | cases hPhase

theorem Call.phase_of_owns (h : Nat) (m : Machine) (hOwns : c.owns = some eid) :
    ∃ p, c.phase h m = some (eid, p) := by
  cases c with
  | _ => first | cases hOwns; exact ⟨_, rfl⟩ | cases hOwns

section

variable (hSlot : ∀ eid, c.owns = some eid → (m'.enclaves eid).regions = (m.enclaves eid).regions)
include hSlot

theorem Call.phase_congr :
    c.phase h m' = c.phase h m := by
  cases c with
  | _ =>
    first
    | rfl
    | simp only [Call.phase, Owner.rid, hSlot _ rfl]

theorem Call.settled_congr
    (hSettled : c.Settled m) : c.Settled m' := by
  cases c with
  | _ =>
    first
    | exact trivial
    | simpa only [Call.Settled, Owner.rid, hSlot _ rfl] using hSettled

end

/- What one step of hart `h` leaves: the hart at `c'`, the slot `eid` in the phase `p`, and every
   other slot as it was. -/
structure Moves (s : System) (h eid : Nat) (m' : Machine) (c' : Call) (p : Phase Nat Nat) :
    Prop where
  other : ∀ e ≠ eid, m'.enclaves e = s.machine.enclaves e
  phase : c'.phase h m' = some (eid, p) ∧ p.agent = some h ∨ c'.phase h m' = none ∧ p.agent = none
  state : PhaseShows p (m'.enclaves eid).state
  live : ∀ held, p = .live held → SlotShape (m'.enclaves eid).regions ∧ held =
    [Owner.rid m' (.epm eid), Owner.rid m' (.utm eid)]
  settled : c'.Settled m'
  rest : ∀ i, 2 ≤ i → ((m'.enclaves eid).regions i).type = .invalid

section

variable (hAcc : Accounts s A)
include hAcc

theorem Accounts.agent (hOwns : (s.calls h).owns = some eid) : (A eid).agent = some h := by
  rcases Call.phase_of_owns h s.machine hOwns with ⟨p, hPhase⟩
  rcases (hAcc.owner h eid p).mp hPhase with ⟨hAt, hAgent⟩
  rw [hAt]
  exact hAgent

theorem Accounts.owns (hAgent : (A eid).agent = some h) : (s.calls h).owns = some eid :=
  Call.owns_of_phase ((hAcc.owner h eid (A eid)).mpr ⟨rfl, hAgent⟩)

theorem Accounts.keep (hOld : (s.calls h).owns = none) (hNew : c'.owns = none)
    (hState : ∀ eid, PhaseShows (A eid) (m'.enclaves eid).state)
    (hRegions : ∀ eid, (m'.enclaves eid).regions = (s.machine.enclaves eid).regions)
    (hPmp : m'.pmp = s.machine.pmp) : Accounts ⟨m', update s.calls h c'⟩ A := by
  have hNone : ∀ (d : Call) n, d.owns = none → d.phase h n = none := by
    intro d n hOwns
    cases hPhase : d.phase h n with
    | none => rfl
    | some q =>
      rw [Call.owns_of_phase hPhase] at hOwns
      cases hOwns
  refine ⟨?_, hState, ?_, ?_, ?_, ?_, hAcc.apart⟩
  · intro k eid p
    rw [← hAcc.owner k eid p]
    by_cases hK : k = h
    · subst hK
      simp only [update_self]
      rw [hNone c' m' hNew, hNone _ s.machine hOld]
    · simp only [update_of_ne hK]
      rw [Call.phase_congr fun e _ => hRegions e]
  · intro eid held hAt
    simp only [Owner.rid, hRegions eid]
    exact hAcc.live eid held hAt
  · intro k
    by_cases hK : k = h
    · subst hK
      simp only [update_self]
      cases c' with
      | _ => first | exact trivial | cases hNew
    · simp only [update_of_ne hK]
      exact Call.settled_congr (fun e _ => hRegions e) (hAcc.settled k)
  · intro eid i hi
    simp only [hRegions eid]
    exact hAcc.rest eid i hi
  · intro eid rid hMem
    rw [hPmp]
    exact hAcc.valid eid rid hMem

/- A step of a call on one slot, which the call owns before or afterwards and which no other hart
   owns. -/
theorem Accounts.move (hMine : ∀ k, (A eid).agent = some k → k = h)
    (hOld : ∀ e, (s.calls h).owns = some e → e = eid) (hMoves : Moves s h eid m' c' p)
    (hValid : ∀ e rid, rid ∈ (update A eid p e).held → isPmpRegionValid m'.pmp rid = true)
    (hApart : Apart (update A eid p)) : Accounts ⟨m', update s.calls h c'⟩ (update A eid p) := by
  rcases hMoves with ⟨hOther, hNew, hState, hLive, hSettled, hRest⟩
  have hAway : ∀ k e, k ≠ h → (s.calls k).owns = some e → e ≠ eid := by
    intro k e hK hOwns hEq
    rw [hEq] at hOwns
    exact hK (hMine k (hAcc.agent hOwns))
  have hSlots : ∀ k ≠ h, ∀ e, (s.calls k).owns = some e → (m'.enclaves e).regions =
      (s.machine.enclaves e).regions := by
    intro k hK e hOwns
    rw [hOther e (hAway k e hK hOwns)]
  have hSelf : ∀ e q, c'.phase h m' = some (e, q) ↔ e = eid ∧ p = q ∧ q.agent = some h := by
    intro e q
    rcases hNew with ⟨hPhase, hAgent⟩ | ⟨hPhase, hAgent⟩
    · rw [hPhase]
      constructor
      · rintro ⟨⟩
        exact ⟨rfl, rfl, hAgent⟩
      · rintro ⟨rfl, rfl, _⟩
        rfl
    · rw [hPhase]
      constructor
      · rintro ⟨⟩
      · rintro ⟨_, rfl, hSome⟩
        rw [hAgent] at hSome
        cases hSome
  refine ⟨?_, ?_, ?_, ?_, ?_, hValid, hApart⟩
  · intro k e q
    by_cases hK : k = h
    · subst hK
      simp only [update_self]
      rw [hSelf]
      by_cases hE : e = eid
      · subst hE
        rw [update_self]
        exact and_iff_right rfl
      · rw [update_of_ne hE]
        constructor
        · intro hBoth
          exact absurd hBoth.1 hE
        · rintro ⟨hAt, hAgent⟩
          rw [← hAt] at hAgent
          exact absurd (hOld e (hAcc.owns hAgent)) hE
    · simp only [update_of_ne hK]
      rw [Call.phase_congr (hSlots k hK)]
      by_cases hE : e = eid
      · subst hE
        rw [update_self]
        constructor
        · intro hPhase
          exact absurd rfl (hAway k e hK (Call.owns_of_phase hPhase))
        · rintro ⟨hEq, hSome⟩
          rw [← hEq] at hSome
          rcases hNew with ⟨_, hAgent⟩ | ⟨_, hAgent⟩
          · rw [hAgent] at hSome
            exact absurd (Option.some.inj hSome).symm hK
          · rw [hAgent] at hSome
            cases hSome
      · rw [update_of_ne hE]
        exact hAcc.owner k e q
  · intro e
    by_cases hE : e = eid
    · subst hE
      rw [update_self]
      exact hState
    · rw [update_of_ne hE]
      simp only [hOther e hE]
      exact hAcc.state e
  · intro e held hAt
    by_cases hE : e = eid
    · subst hE
      rw [update_self] at hAt
      exact hLive held hAt
    · rw [update_of_ne hE] at hAt
      simp only [Owner.rid, hOther e hE]
      exact hAcc.live e held hAt
  · intro k
    by_cases hK : k = h
    · subst hK
      simp only [update_self]
      exact hSettled
    · simp only [update_of_ne hK]
      exact Call.settled_congr (hSlots k hK) (hAcc.settled k)
  · intro e i hi
    by_cases hE : e = eid
    · subst hE
      exact hRest i hi
    · simp only [hOther e hE]
      exact hAcc.rest e i hi

end

end Keystone
