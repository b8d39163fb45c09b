import Keystone.Sm.Interleaving.Accounts
import Keystone.Sm.RegionSteps

/-
  Steps of an interleaving as steps of its ledger.

  As long as no destroy makes its state test of an owned slot, each step of a call is one step of
  the ledger, with the same label. There is one lemma for each step of a call; the main result
  collects them.
-/

----
-- Machine Steps
----

namespace Keystone

open Function (update update_of_ne update_self)
open Option (bind_eq_some_iff map_eq_some_iff some)
open Machine (claim entered left setEnclave setMem setState unclaim)

variable {P : Platform} {m m' : Machine}

variable {rid : Nat} {load : Bool} {regs : TrapRegs}

theorem pmpUnsetGlobal_frame {err : SmError} (hUnset : pmpUnsetGlobal P m rid = some (err, m')) :
    m'.enclaves = m.enclaves ∧ m'.pmp = m.pmp := by
  unfold pmpUnsetGlobal at hUnset
  split at hUnset
  · cases hUnset
    exact ⟨rfl, rfl⟩
  · rcases bind_eq_some_iff.mp hUnset with ⟨w, _, hEq⟩
    cases hEq
    exact ⟨rfl, rfl⟩

theorem pmpSetGlobal_frame {perm : Byte} {err : SmError}
    (hSet : pmpSetGlobal P m rid perm = some (err, m')) :
    m'.enclaves = m.enclaves ∧ m'.pmp = m.pmp := by
  unfold pmpSetGlobal at hSet
  split at hSet
  · cases hSet
    exact ⟨rfl, rfl⟩
  · rcases bind_eq_some_iff.mp hSet with ⟨w, _, hEq⟩
    cases hEq
    exact ⟨rfl, rfl⟩

/- The regions that a create writes into its slot. -/
def slotRegions (regions : Nat → EnclaveRegion) (region sharedRegion : Nat) : Nat → EnclaveRegion :=
  update (update regions 0 ⟨region, .epm⟩) 1 ⟨sharedRegion, .utm⟩

theorem slotRegions_shape {regions : Nat → EnclaveRegion}
    (hRest : ∀ i, 2 ≤ i → (regions i).type = .invalid) (region sharedRegion : Nat) :
    SlotShape (slotRegions regions region sharedRegion) := by
  refine ⟨by simp [slotRegions], by simp [slotRegions], ?_⟩
  intro i hi
  have hZero : i ≠ 0 := by omega
  have hOne : i ≠ 1 := by omega
  simp only [slotRegions, update_of_ne hOne, update_of_ne hZero]
  exact hRest i hi

variable {eid : Nat}

theorem createSetup_frame {h region sharedRegion : Nat} {args : CreateArgs} {setup : SmError}
    (hSetup : createSetup P m h args eid region sharedRegion = some (setup, m')) :
    m'.pmp = m.pmp ∧ (∀ e ≠ eid, m'.enclaves e = m.enclaves e) ∧
    (m'.enclaves eid).state = (m.enclaves eid).state ∧
    (setup ≠ .success ∧ m'.enclaves = m.enclaves ∨ setup = .success ∧ (m'.enclaves eid).regions =
      slotRegions (m.enclaves eid).regions region sharedRegion) := by
  unfold createSetup at hSetup
  rcases bind_eq_some_iff.mp hSetup with ⟨⟨set, m₁⟩, hSet, hRest⟩
  rcases pmpSetGlobal_frame hSet with ⟨hSlots, hPmp⟩
  by_cases hOk : set = .success
  · simp only [hOk, ne_eq, not_true, if_false] at hRest
    cases hRest
    refine ⟨hPmp, ?_, ?_, .inr ⟨rfl, ?_⟩⟩
    · intro e hE
      simp [createMetadata, cleanEnclaveMemory, setEnclave, setMem, hE, hSlots]
    · simp [createMetadata, cleanEnclaveMemory, setEnclave, setMem, hSlots]
    · simp [createMetadata, cleanEnclaveMemory, setEnclave, setMem, hSlots,
        slotRegions]
  · simp only [hOk, ne_eq, not_false_eq_true, if_true] at hRest
    cases hRest
    refine ⟨hPmp, ?_, ?_, .inl ⟨by decide, hSlots⟩⟩
    · intro e _
      rw [hSlots]
    · rw [hSlots]

theorem contextSwitchToEnclave_frame {h : Nat} {regs' : TrapRegs}
    (hSwitch : contextSwitchToEnclave P m h regs eid load = some (regs', m')) :
    m'.pmp = m.pmp ∧ ∀ e, (m'.enclaves e).state = (m.enclaves e).state ∧
    (m'.enclaves e).regions = (m.enclaves e).regions := by
  rw [contextSwitchToEnclave_eq] at hSwitch
  rcases map_eq_some_iff.mp hSwitch with ⟨c, _, hEq⟩
  cases hEq
  refine ⟨rfl, ?_⟩
  intro e
  by_cases hE : e = eid
  · subst hE
    simp [entered]
  · simp [entered, hE]

theorem contextSwitchToHost_frame {h : Nat} {regs' : TrapRegs} {returnOnResume : Bool}
    (hSwitch : contextSwitchToHost P m h regs eid returnOnResume = some (regs', m')) :
    m'.pmp = m.pmp ∧ ∀ e, (m'.enclaves e).state = (m.enclaves e).state ∧
    (m'.enclaves e).regions = (m.enclaves e).regions := by
  rw [contextSwitchToHost_eq] at hSwitch
  rcases map_eq_some_iff.mp hSwitch with ⟨c, _, hEq⟩
  cases hEq
  refine ⟨rfl, ?_⟩
  intro e
  by_cases hE : e = eid
  · subst hE
    simp [left]
  · simp [left, hE]

theorem enterSection_cases {ok : Bool} (hSection : enterSection P m eid load = (ok, m'))
    : (ok = false ∧ m' = m) ∨ (ok = true ∧ Enterable P m eid load ∧ m' = m.claim eid) := by
  cases load with
  | true =>
    simp only [enterSection, if_true, runCheck] at hSection
    split at hSection
    · rename_i hOk
      cases hSection
      simp only [Bool.and_eq_true, decide_eq_true_eq] at hOk
      exact .inr ⟨rfl, ⟨hOk.1, hOk.2⟩, rfl⟩
    · cases hSection
      exact .inl ⟨rfl, rfl⟩
  | false =>
    simp only [enterSection, Bool.false_eq_true, if_false, resumeCheck] at hSection
    split at hSection
    · rename_i hOk
      cases hSection
      simp only [Bool.and_eq_true, Bool.or_eq_true, decide_eq_true_eq] at hOk
      exact .inr ⟨rfl, ⟨hOk.1.1, hOk.1.2, hOk.2⟩, rfl⟩
    · cases hSection
      exact .inl ⟨rfl, rfl⟩

theorem leaveCheck_cases {ok : Bool} (hCheck : leaveCheck m eid = (ok, m')) :
    (ok = false ∧ m' = m) ∨
    (ok = true ∧ (m.enclaves eid).state = .running ∧ m' = m.unclaim eid) := by
  unfold leaveCheck at hCheck
  split at hCheck
  · rename_i hState
    cases hCheck
    exact .inr ⟨rfl, hState, rfl⟩
  · cases hCheck
    exact .inl ⟨rfl, rfl⟩

----
-- Simulation
----

open Ledger

variable {K : Crypto} {s : System} {A : Nat → Phase Nat Nat}
variable {h : Nat} {c c' : Call} {l : Label Nat Nat} {p q : Phase Nat Nat}

/- The system after hart `h` made a step. -/
def System.moved (s : System) (h : Nat) (m' : Machine) (c' : Call) : System :=
  ⟨m', update s.calls h c'⟩

/- The step is one of the ledger. -/
def Booked (A : Nat → Phase Nat Nat) (l : Label Nat Nat) (s' : System) : Prop :=
  ∃ A', Ledger.Step A l A' ∧ Accounts s' A'

section

variable (hAcc : Accounts s A)
include hAcc

theorem Accounts.booked (hCall : s.calls h = c)
    (hPhase : c.phase h s.machine = some (eid, q))
    (hStep : Ledger.Step A l (update A eid p)) (hMoves : Moves s h eid m' c' p)
    (hValid : ∀ e rid, rid ∈ (update A eid p e).held → isPmpRegionValid m'.pmp rid = true) :
    Booked A l (s.moved h m' c') := by
  subst hCall
  refine ⟨_, hStep, hAcc.move ?_ ?_ hMoves hValid (hStep.apart hAcc.apart)⟩
  · intro k hAgent
    have hOwn := hAcc.agent (Call.owns_of_phase hPhase)
    rw [hOwn] at hAgent
    exact (some.inj hAgent).symm
  · intro e hOwns
    rw [Call.owns_of_phase hPhase] at hOwns
    exact (some.inj hOwns).symm

theorem Accounts.at (hCall : s.calls h = c)
    (hPhase : c.phase h s.machine = some (eid, q)) : A eid = q ∧ q.agent = some h := by
  subst hCall
  exact (hAcc.owner h eid q).mp hPhase

theorem Accounts.valid_same (hPmp : m'.pmp = s.machine.pmp)
    (hSub : ∀ r ∈ p.held, r ∈ (A eid).held) :
    ∀ e rid, rid ∈ (update A eid p e).held → isPmpRegionValid m'.pmp rid = true := by
  intro e rid hMem
  rw [hPmp]
  by_cases hE : e = eid
  · rw [hE, update_self] at hMem
    exact hAcc.valid eid rid (hSub rid hMem)
  · rw [update_of_ne hE] at hMem
    exact hAcc.valid e rid hMem

theorem Accounts.valid_freed {r : Nat} (hPmp : m'.pmp = (pmpRegionFreeAtomic s.machine.pmp r).2)
    (hStep : Ledger.Step A (.release r) (update A eid p))
    (hSub : ∀ x ∈ p.held, x ∈ (A eid).held) :
    ∀ e rid, rid ∈ (update A eid p e).held → isPmpRegionValid m'.pmp rid = true := by
  intro e rid hMem
  have hNe : rid ≠ r := by
    intro hEq
    rw [hEq] at hMem
    exact (hStep.released hAcc.apart).2 e hMem
  have hOld : isPmpRegionValid s.machine.pmp rid = true := hAcc.valid_same rfl hSub e rid hMem
  rw [hPmp]
  unfold pmpRegionFreeAtomic
  split
  · exact hOld
  · simp [hOld, hNe]

theorem Accounts.valid_added {i : Nat} {r : PmpRegion}
    (hAdds : AddsEntry s.machine.pmp i r m'.pmp) (hSub : ∀ x ∈ p.held, x ∈ (A eid).held ∨ x = i)
    : ∀ e rid, rid ∈ (update A eid p e).held → isPmpRegionValid m'.pmp rid = true := by
  intro e rid hMem
  rw [hAdds.valid]
  by_cases hE : e = eid
  · rw [hE, update_self] at hMem
    rcases hSub rid hMem with hOld | hEq
    · simp [hAcc.valid eid rid hOld]
    · simp [hEq]
  · rw [update_of_ne hE] at hMem
    simp [hAcc.valid e rid hMem]

theorem Accounts.unheld (hFresh : isPmpRegionValid s.machine.pmp rid = false) : Unheld A rid := by
  intro eid hMem
  rw [hAcc.valid eid rid hMem] at hFresh
  cases hFresh

end

theorem silent_at (hAt : A eid = p) :
    Ledger.Step A (.silent : Label Nat Nat) (update A eid p) := by
  rw [← hAt, Function.update_eq_self]
  exact .silent A

variable {r : Progress} {args : CreateArgs} {eid region sharedRegion : Nat} {ret : SmError}

theorem Accounts.free_of_invalid (hAcc : Accounts s A)
    (hState : (s.machine.enclaves eid).state = .invalid) : A eid = .free := by
  have hShows := hAcc.state eid
  rw [hState] at hShows
  cases hAt : A eid with
  | free => rfl
  | creating a held =>
    rw [hAt] at hShows
    cases hShows
  | live held =>
    rw [hAt] at hShows
    rcases hShows with hEq | hEq | hEq <;> cases hEq
  | destroying a held =>
    rw [hAt] at hShows
    cases hShows

theorem createAlloc_booked (hAcc : Accounts s A) (hCall : s.calls h = .createAlloc args)
    (hAdv : advance P K s.machine h (.createAlloc args) = some (r, m')) :
    Booked A (callLabel P s.machine (.createAlloc args)) (s.moved h m' r.call) := by
  have hOld : (s.calls h).owns = none := by
    rw [hCall]
    rfl
  have hKeep : Booked A .silent (s.moved h s.machine .idle) :=
    ⟨A, .silent A, hAcc.keep hOld rfl hAcc.state (fun _ => rfl) rfl⟩
  simp only [advance] at hAdv
  simp only [callLabel]
  by_cases hArgs : isCreateArgsValid args = true
  · simp only [hArgs, Bool.not_true, Bool.false_eq_true, if_false] at hAdv
    rcases hAlloc : enclAllocEid P s.machine with ⟨slot, m₁⟩
    rw [hAlloc] at hAdv
    simp only [hArgs, if_true]
    rcases enclAllocEid_cases hAlloc with ⟨hNone, hSame⟩ | ⟨eid, hSome, _, hFree, hNew⟩
    · subst hNone hSame
      cases hAdv
      exact hKeep
    · subst hSome hNew
      cases hAdv
      have hAt := hAcc.free_of_invalid hFree
      have hStep : Ledger.Step A (.alloc eid) (update A eid (.creating h [])) := .alloc h hAt
      refine ⟨_, hStep, hAcc.move ?_ ?_ ⟨?_, .inl ⟨rfl, rfl⟩, ?_, ?_, trivial, ?_⟩
        (hAcc.valid_same rfl ?_) (hStep.apart hAcc.apart)⟩
      · intro k hAgent
        rw [hAt] at hAgent
        cases hAgent
      · intro e hOwns
        rw [hOld] at hOwns
        cases hOwns
      · intro e hE
        exact update_of_ne hE _ _
      · simp [PhaseShows, setState, setEnclave]
      · intro held hEq
        cases hEq
      · intro i hi
        simp only [setState, setEnclave, update_self]
        exact hAcc.rest eid i hi
      · intro x hx
        cases hx
  · have hInvalid := Bool.eq_false_iff.mpr hArgs
    simp only [hInvalid, Bool.not_false, if_true] at hAdv
    cases hAdv
    simp only [hInvalid, Bool.false_eq_true, if_false]
    exact hKeep

/- A region initialization by the owner of a slot that holds some regions already. -/
theorem regionInit_booked {held : List Nat} {start size : Word} {priority : PmpPriority}
    {i : RegionInitRet} (onError : Call) (onSuccess : Nat → Call) (hAcc : Accounts s A)
    (hCall : s.calls h = c) (hPhase : c.phase h s.machine = some (eid, .creating h held))
    (hInit : pmpRegionInit P s.machine.pmp start size priority false = some i)
    (hError : ∀ n, onError.phase h n = some (eid, .creating h held))
    (hSuccess : ∀ rid n, (onSuccess rid).phase h n = some (eid, .creating h (held ++ [rid])))
    (hErrorSettled : ∀ n, onError.Settled n) (hSettled : ∀ rid n, (onSuccess rid).Settled n)
    (hNext : (if i.ret ≠ .success then some (.goesTo onError, s.machine.setPmp i.table)
      else i.rid.bind fun rid => some (.goesTo (onSuccess rid), s.machine.setPmp i.table)) =
      some (r, m')) :
    Booked A (initLabel (some i)) (s.moved h m' r.call) := by
  have hAt := (hAcc.at hCall hPhase).1
  have hShows := hAcc.state eid
  rw [hAt] at hShows
  rcases pmpRegionInit_cases hInit with ⟨hRet, hTable⟩ | ⟨hRet, rid, hRid, hDef⟩
  · rw [if_pos hRet] at hNext
    cases hNext
    have hLabel : initLabel (some i) = .silent := by simp [initLabel, hRet]
    rw [hLabel, hTable]
    refine hAcc.booked hCall hPhase (silent_at hAt) ⟨fun _ _ => rfl, .inl ⟨hError _, rfl⟩, hShows, ?_,
      hErrorSettled _, hAcc.rest eid⟩ (hAcc.valid_same rfl ?_)
    · intro live hEq
      cases hEq
    · intro x hx
      rw [hAt]
      exact hx
  · simp only [hRet, ne_eq, not_true, if_false, hRid, Option.bind_some] at hNext
    cases hNext
    have hLabel : initLabel (some i) = .take rid := by simp [initLabel, hRet, hRid]
    rcases hDef.addsEntry with ⟨_, _, _, hAdds⟩
    have hStep := Ledger.Step.take hAt (hAcc.unheld hDef.fresh)
    rw [hLabel]
    refine hAcc.booked hCall hPhase hStep ⟨fun _ _ => rfl, .inl ⟨hSuccess rid _, rfl⟩, hShows, ?_,
      hSettled rid _, hAcc.rest eid⟩ (hAcc.valid_added hAdds ?_)
    · intro live hEq
      cases hEq
    · intro x hx
      rw [hAt]
      rcases List.mem_append.mp hx with hIn | hLast
      · exact .inl hIn
      · exact .inr (List.mem_singleton.mp hLast)

section

variable (hAcc : Accounts s A)
include hAcc

theorem createEpm_booked (hCall : s.calls h = .createEpm args eid)
    (hAdv : advance P K s.machine h (.createEpm args eid) = some (r, m')) :
    Booked A (callLabel P s.machine (.createEpm args eid)) (s.moved h m' r.call) := by
  rcases bind_eq_some_iff.mp hAdv with ⟨i, hInit, hNext⟩
  simp only [callLabel, hInit]
  exact regionInit_booked (.createFreeEid eid .pmpFailure) (.createUtm args eid) hAcc hCall rfl hInit
    (fun _ => rfl) (fun _ _ => rfl) (fun _ => trivial) (fun _ _ => trivial) hNext

theorem createUtm_booked (hCall : s.calls h = .createUtm args eid region)
    (hAdv : advance P K s.machine h (.createUtm args eid region) = some (r, m')) :
    Booked A (callLabel P s.machine (.createUtm args eid region)) (s.moved h m' r.call) := by
  rcases bind_eq_some_iff.mp hAdv with ⟨i, hInit, hNext⟩
  simp only [callLabel, hInit]
  exact regionInit_booked (.createFreeRegion eid region .pmpFailure) (.createSetup args eid region)
    hAcc hCall rfl hInit (fun _ => rfl) (fun _ _ => rfl) (fun _ => trivial) (fun _ _ => trivial) hNext

theorem silent_booked (hCall : s.calls h = c) (hPhase : c.phase h s.machine = some (eid, q))
    (hPmp : m'.pmp = s.machine.pmp) (hOther : ∀ e ≠ eid, m'.enclaves e = s.machine.enclaves e)
    (hState : (m'.enclaves eid).state = (s.machine.enclaves eid).state)
    (hNew : c'.phase h m' = some (eid, q)) (hSettled : c'.Settled m')
    (hRest : ∀ i, 2 ≤ i → ((m'.enclaves eid).regions i).type = .invalid) :
    Booked A .silent (s.moved h m' c') := by
  rcases hAcc.at hCall hPhase with ⟨hAt, hAgent⟩
  have hShows := hAcc.state eid
  rw [hAt, ← hState] at hShows
  refine hAcc.booked hCall hPhase (silent_at hAt) ⟨hOther, .inl ⟨hNew, hAgent⟩, hShows, ?_, hSettled,
    hRest⟩ (hAcc.valid_same hPmp ?_)
  · intro live hEq
    rw [hEq] at hAgent
    cases hAgent
  · intro x hx
    rw [hAt]
    exact hx

theorem createSetup_booked (hCall : s.calls h = .createSetup args eid region sharedRegion)
    (hAdv : advance P K s.machine h (.createSetup args eid region sharedRegion) = some (r, m')) :
    Booked A .silent (s.moved h m' r.call) := by
  rcases bind_eq_some_iff.mp hAdv with ⟨⟨setup, m₁⟩, hSetup, hNext⟩
  rcases createSetup_frame hSetup with ⟨hPmp, hOther, hState, hCases⟩
  rcases hCases with ⟨hFail, hSlots⟩ | ⟨hOk, hRegions⟩
  · simp only [hFail, ne_eq, not_false_eq_true, if_true] at hNext
    cases hNext
    refine silent_booked hAcc hCall rfl hPmp hOther hState rfl trivial ?_
    rw [hSlots]
    exact hAcc.rest eid
  · simp only [hOk, ne_eq, not_true, if_false, platformCreateEnclave] at hNext
    cases hNext
    have hSame : m₁.setEnclave eid (m₁.enclaves eid) = m₁ := by
      simp [setEnclave]
    have hShape := slotRegions_shape (hAcc.rest eid) region sharedRegion
    rw [← hRegions] at hShape
    simp only [hSame]
    refine silent_booked hAcc hCall rfl hPmp hOther hState rfl ⟨hShape, ?_, ?_⟩ hShape.rest
    · simp [Owner.rid, hRegions, slotRegions]
    · simp [Owner.rid, hRegions, slotRegions]

theorem createPublish_booked (hCall : s.calls h = .createPublish eid region sharedRegion)
    (hAdv : advance P K s.machine h (.createPublish eid region sharedRegion) = some (r, m')) :
    Booked A .silent (s.moved h m' r.call) := by
  cases hAdv
  have hAt := (hAcc.at hCall rfl).1
  have hSettled := hAcc.settled h
  rw [hCall] at hSettled
  rcases hSettled with ⟨hShape, hEpm, hUtm⟩
  refine hAcc.booked hCall rfl (Ledger.Step.publish hAt) ⟨?_, .inr ⟨rfl, rfl⟩, ?_, ?_, trivial, ?_⟩
    (hAcc.valid_same rfl ?_)
  · intro e hE
    simp [setState, setEnclave, hE]
  · left
    simp [setState, setEnclave]
  · intro held hEq
    cases hEq
    simp only [setState, setEnclave, Owner.rid, update_self]
    exact ⟨hShape, by rw [hEpm, hUtm]; rfl⟩
  · intro i hi
    simp only [setState, setEnclave, update_self]
    exact hAcc.rest eid i hi
  · intro x hx
    rw [hAt]
    exact hx

theorem createUnset_booked (hCall : s.calls h = .createUnset eid region sharedRegion ret)
    (hAdv : advance P K s.machine h (.createUnset eid region sharedRegion ret) = some (r, m')) :
    Booked A .silent (s.moved h m' r.call) := by
  rcases bind_eq_some_iff.mp hAdv with ⟨⟨err, m₁⟩, hUnset, hNext⟩
  cases hNext
  rcases pmpUnsetGlobal_frame hUnset with ⟨hSlots, hPmp⟩
  refine silent_booked hAcc hCall rfl hPmp (fun e _ => by rw [hSlots]) (by rw [hSlots]) rfl trivial ?_
  rw [hSlots]
  exact hAcc.rest eid

theorem freeRegion_booked (hCall : s.calls h = c) (hPhase : c.phase h s.machine = some (eid, q))
    (hStep : Ledger.Step A (.release rid) (update A eid p)) (hSub : ∀ x ∈ p.held, x ∈ q.held)
    (hAgent : p.agent = some h) (hShows : ∀ state, PhaseShows q state → PhaseShows p state)
    (hNew : c'.phase h (s.machine.freeRegion rid) = some (eid, p))
    (hSettled : c'.Settled (s.machine.freeRegion rid)) :
    Booked A (.release rid) (s.moved h (s.machine.freeRegion rid) c') := by
  have hAt := (hAcc.at hCall hPhase).1
  have hState := hAcc.state eid
  rw [hAt] at hState
  refine hAcc.booked hCall hPhase hStep ⟨fun _ _ => rfl, .inl ⟨hNew, hAgent⟩, hShows _ hState, ?_, hSettled,
    hAcc.rest eid⟩ (hAcc.valid_freed rfl hStep ?_)
  · intro held hEq
    rw [hEq] at hAgent
    cases hAgent
  · intro x hx
    rw [hAt]
    exact hSub x hx

theorem createFreeShared_booked
    (hCall : s.calls h = .createFreeShared eid region sharedRegion ret) :
    Booked A (.release sharedRegion) (s.moved h (s.machine.freeRegion sharedRegion)
      (.createFreeRegion eid region ret)) := by
  have hAt : A eid = .creating h ([region] ++ [sharedRegion]) := (hAcc.at hCall rfl).1
  exact freeRegion_booked hAcc hCall rfl (Ledger.Step.giveBack hAt)
    (fun x hx => List.mem_append_left _ hx) rfl
    (fun _ hShows => hShows) rfl trivial

theorem createFreeRegion_booked (hCall : s.calls h = .createFreeRegion eid region ret) :
    Booked A (.release region) (s.moved h (s.machine.freeRegion region)
      (.createFreeEid eid ret)) := by
  have hAt : A eid = .creating h ([] ++ [region]) := (hAcc.at hCall rfl).1
  exact freeRegion_booked hAcc hCall rfl (Ledger.Step.giveBack hAt)
    (fun x hx => List.mem_append_left _ hx) rfl
    (fun _ hShows => hShows) rfl trivial

theorem freeEid_booked (hCall : s.calls h = c) (hPhase : c.phase h s.machine = some (eid, q))
    (hEmpty : q = .creating h [] ∨ q = .destroying h []) :
    Booked A (.free eid) (s.moved h (enclFreeEid s.machine eid) .idle) := by
  have hAt := (hAcc.at hCall hPhase).1
  rw [← hAt] at hEmpty
  refine hAcc.booked hCall hPhase (Ledger.Step.free hEmpty) ⟨?_, .inr ⟨rfl, rfl⟩, ?_, ?_, trivial, ?_⟩
    (hAcc.valid_same rfl ?_)
  · intro e hE
    exact update_of_ne hE _ _
  · simp [PhaseShows, enclFreeEid, setState, setEnclave]
  · intro held hEq
    cases hEq
  · intro i hi
    simp only [enclFreeEid, setState, setEnclave, update_self]
    exact hAcc.rest eid i hi
  · intro x hx
    cases hx

theorem Accounts.live_of_state
    (hState : (s.machine.enclaves eid).state = .fresh ∨ (s.machine.enclaves eid).state = .stopped ∨
      (s.machine.enclaves eid).state = .running) : ∃ held, A eid = .live held := by
  have hShows := hAcc.state eid
  generalize A eid = p at hShows
  cases p with
  | live held => exact ⟨held, rfl⟩
  | free | creating a held | destroying a held =>
    rw [hShows] at hState
    rcases hState with hEq | hEq | hEq <;> cases hEq

end

/- Outside the two states of an owned slot, the state test admits fresh and stopped enclaves. -/
theorem destroyable_idle (hOk : destroyable P m eid = true)
    (hAllocated : (m.enclaves eid).state ≠ .allocated)
    (hDestroying : (m.enclaves eid).state ≠ .destroying) :
    (m.enclaves eid).state = .fresh ∨ (m.enclaves eid).state = .stopped := by
  cases hState : (m.enclaves eid).state with
  | fresh => exact .inl rfl
  | stopped => exact .inr rfl
  | allocated => exact absurd hState hAllocated
  | destroying => exact absurd hState hDestroying
  | invalid => simp [destroyable, enclaveExists, hState, EnclaveState.code] at hOk
  | running => simp [destroyable, hState, EnclaveState.code] at hOk

section

variable (hAcc : Accounts s A)
include hAcc

theorem destroyCheck_booked (hOk : NotBusy s (.advance h)) (hCall : s.calls h = .destroyCheck eid)
    (hAdv : advance P K s.machine h (.destroyCheck eid) = some (r, m')) :
    Booked A (callLabel P s.machine (.destroyCheck eid)) (s.moved h m' r.call) := by
  have hOld : (s.calls h).owns = none := by
    rw [hCall]
    rfl
  simp only [advance, destroyCheck] at hAdv
  simp only [callLabel]
  by_cases hTest : destroyable P s.machine eid = true
  · simp only [hTest, if_true] at hAdv ⊢
    cases hAdv
    rcases hOk h eid rfl hCall with ⟨hAlloc, hDestr⟩
    have hState := destroyable_idle hTest hAlloc hDestr
    rcases hAcc.live_of_state (hState.imp_right .inl) with ⟨held, hAt⟩
    rcases hAcc.live eid held hAt with ⟨hShape, hHeld⟩
    subst hHeld
    have hStep : Ledger.Step A (.retire eid) (update A eid (.destroying h
        [Owner.rid s.machine (.epm eid), Owner.rid s.machine (.utm eid)])) :=
      .retire h hAt
    have hRegions : (((s.machine.setState eid .destroying).setEnclave eid (platformDestroyEnclave
        ((s.machine.setState eid .destroying).enclaves eid))).enclaves
        eid).regions =
        (s.machine.enclaves eid).regions := by
      simp [setState, setEnclave, platformDestroyEnclave]
    refine ⟨_, hStep, hAcc.move ?_ ?_ ⟨?_, .inl ⟨?_, rfl⟩, ?_, ?_, ?_, ?_⟩
      (hAcc.valid_same rfl ?_) (hStep.apart hAcc.apart)⟩
    · intro k hAgent
      rw [hAt] at hAgent
      cases hAgent
    · intro e hOwns
      rw [hOld] at hOwns
      cases hOwns
    · intro e hE
      simp [setState, setEnclave, hE]
    · simp only [Progress.call, Call.phase, Owner.rid, hRegions, if_true]
    · simp [PhaseShows, setState, setEnclave, platformDestroyEnclave]
    · intro live hEq
      cases hEq
    · simp only [Progress.call, Call.Settled, hRegions]
      exact hShape
    · rw [hRegions]
      exact hShape.rest
    · intro x hx
      rw [hAt]
      exact hx
  · simp only [hTest, Bool.false_eq_true, if_false] at hAdv ⊢
    cases hAdv
    exact ⟨A, .silent A, hAcc.keep hOld rfl hAcc.state (fun _ => rfl) rfl⟩

theorem destroyClear_booked {i : Nat} (hCall : s.calls h = .destroyClear eid i)
    (hAdv : advance P K s.machine h (.destroyClear eid i) = some (r, m')) :
    Booked A .silent (s.moved h m' r.call) := by
  have hShape := hAcc.settled h
  rw [hCall] at hShape
  have hZero : i = 0 → 0 < P.enclaveRegionsMax := by
    intro _
    have hTwo := P.two_le_enclaveRegionsMax
    omega
  simp only [advance] at hAdv
  by_cases hLt : i < P.enclaveRegionsMax
  · rw [if_pos hLt] at hAdv
    by_cases hSkip : ((s.machine.enclaves eid).regions i).type = .invalid ∨
          ((s.machine.enclaves eid).regions i).type = .utm
    · -- the private region is the only one not passed over
      have hNe : i ≠ 0 := by
        intro hEq
        rw [hEq, hShape.epm] at hSkip
        rcases hSkip with hEq | hEq <;> cases hEq
      rw [if_pos hSkip] at hAdv
      cases hAdv
      refine silent_booked hAcc hCall rfl rfl (fun _ _ => rfl) rfl ?_ hShape hShape.rest
      simp [Progress.call, Call.phase, hNe]
    · have hEq : i = 0 := by
        by_contra hNe
        apply hSkip
        by_cases hOne : i = 1
        · rw [hOne]
          exact .inr hShape.utm
        · exact .inl (hShape.rest i (by omega))
      subst hEq
      rw [if_neg hSkip] at hAdv
      rcases bind_eq_some_iff.mp hAdv with ⟨⟨err, m₁⟩, hUnset, hNext⟩
      cases hNext
      rcases pmpUnsetGlobal_frame hUnset with ⟨hSlots, hPmp⟩
      have hSlots' : m₁.enclaves = s.machine.enclaves := hSlots
      refine silent_booked hAcc hCall rfl hPmp (fun e _ => by rw [hSlots']) (by rw [hSlots']) ?_ ?_ ?_
      · simp [Progress.call, Call.phase, Owner.rid, hSlots']
      · simp only [Progress.call, Call.Settled, hSlots']
        exact hShape
      · rw [hSlots']
        exact hShape.rest
  · have hNe : i ≠ 0 := by
      intro hEq
      rw [hEq] at hLt
      exact hLt (hZero hEq)
    rw [if_neg hLt] at hAdv
    cases hAdv
    refine silent_booked hAcc hCall rfl rfl (fun _ _ => rfl) rfl ?_ hShape hShape.rest
    simp [Progress.call, Call.phase, hNe]

theorem destroyFree_booked {i : Nat} (hCall : s.calls h = .destroyFree eid i rid) :
    Booked A (.release rid) (s.moved h (s.machine.freeRegion rid) (.destroyClear eid (i + 1))) := by
  have hShape := hAcc.settled h
  rw [hCall] at hShape
  refine freeRegion_booked hAcc hCall rfl (Ledger.Step.release (hAcc.at hCall rfl).1)
    (fun x hx => List.mem_cons_of_mem _ hx) rfl
    (fun _ hShows => hShows) ?_ hShape
  simp [Call.phase, Owner.rid, Machine.freeRegion, Machine.setPmp]

theorem destroyFreeUtm_booked (hCall : s.calls h = .destroyFreeUtm eid) :
    Booked A (callLabel P s.machine (.destroyFreeUtm eid)) (s.moved h (destroyUtm P s.machine eid)
      (.destroyReset eid)) := by
  have hShape := hAcc.settled h
  rw [hCall] at hShape
  have hIndex := getEnclaveRegionIndex_utm (P := P) (m := s.machine) hShape
  simp only [callLabel, destroyUtm, hIndex]
  exact freeRegion_booked hAcc hCall rfl (Ledger.Step.release (hAcc.at hCall rfl).1)
    (fun x hx => absurd hx List.not_mem_nil) rfl
    (fun _ hShows => hShows) rfl trivial

theorem destroyReset_booked (hCall : s.calls h = .destroyReset eid) :
    Booked A .silent (s.moved h (destroyMetadata P s.machine eid) (.destroyFreeEid eid)) := by
  refine silent_booked hAcc hCall rfl rfl ?_ ?_ rfl trivial ?_
  · intro e hE
    exact update_of_ne hE _ _
  · simp [destroyMetadata, setEnclave]
  · intro i hi
    simp only [destroyMetadata, setEnclave, update_self]
    split
    · rfl
    · exact hAcc.rest eid i hi

theorem claim_shows (hOk : Enterable P s.machine eid load) :
    ∀ e, PhaseShows (A e) ((s.machine.claim eid).enclaves e).state := by
  have hState : (s.machine.enclaves eid).state = .fresh ∨
      (s.machine.enclaves eid).state = .stopped ∨
      (s.machine.enclaves eid).state = .running := by
    cases load with
    | true =>
      have hFresh := hOk.2
      exact .inl hFresh
    | false =>
      have hResumable := hOk.2
      exact .inr hResumable.1.symm
  intro e
  by_cases hE : e = eid
  · subst hE
    rcases hAcc.live_of_state hState with ⟨held, hAt⟩
    rw [hAt]
    simp [claim, setEnclave, PhaseShows]
  · simp only [claim, setEnclave, update_of_ne hE]
    exact hAcc.state e

theorem unclaim_shows (hRunning : (s.machine.enclaves eid).state = .running) :
    ∀ e, PhaseShows (A e) ((s.machine.unclaim eid).enclaves e).state := by
  intro e
  by_cases hE : e = eid
  · subst hE
    rcases hAcc.live_of_state (.inr (.inr hRunning)) with ⟨held, hAt⟩
    rw [hAt]
    simp only [unclaim, setEnclave, update_self, PhaseShows]
    split
    · exact .inr (.inl rfl)
    · exact .inr (.inr rfl)
  · simp only [unclaim, setEnclave, update_of_ne hE]
    exact hAcc.state e

theorem unowned_booked (hCall : s.calls h = c) (hOld : c.owns = none)
    (hNew : c'.owns = none) (hState : ∀ e, PhaseShows (A e) (m'.enclaves e).state)
    (hRegions : ∀ e, (m'.enclaves e).regions = (s.machine.enclaves e).regions)
    (hPmp : m'.pmp = s.machine.pmp) : Booked A .silent (s.moved h m' c') := by
  subst hCall
  exact ⟨A, .silent A, hAcc.keep hOld hNew hState hRegions hPmp⟩

theorem switch_booked (hCall : s.calls h = c) (hOld : c.owns = none) (hNew : c'.owns = none)
    (hFrame : m'.pmp = s.machine.pmp ∧
      ∀ e, (m'.enclaves e).state = (s.machine.enclaves e).state ∧
        (m'.enclaves e).regions = (s.machine.enclaves e).regions) :
    Booked A .silent (s.moved h m' c') := by
  refine unowned_booked hAcc hCall hOld hNew ?_ (fun e => (hFrame.2 e).2) hFrame.1
  intro e
  rw [(hFrame.2 e).1]
  exact hAcc.state e

end

theorem claim_regions (m : Machine) (eid e : Nat) : ((m.claim eid).enclaves e).regions =
    (m.enclaves e).regions := by
  by_cases hE : e = eid
  · subst hE
    simp [claim, setEnclave]
  · simp [claim, setEnclave, hE]

theorem unclaim_regions (m : Machine) (eid e : Nat) : ((m.unclaim eid).enclaves e).regions =
    (m.enclaves e).regions := by
  by_cases hE : e = eid
  · subst hE
    simp [unclaim, setEnclave]
  · simp [unclaim, setEnclave, hE]

section

variable (hAcc : Accounts s A)
include hAcc

theorem enterCheck_booked (hCall : s.calls h = .enterCheck eid load regs)
    (hAdv : advance P K s.machine h (.enterCheck eid load regs) = some (r, m')) :
    Booked A .silent (s.moved h m' r.call) := by
  simp only [advance] at hAdv
  rcases hSection : enterSection P s.machine eid load with ⟨ok, m₁⟩
  rw [hSection] at hAdv
  rcases enterSection_cases hSection with ⟨hFalse, hSame⟩ | ⟨hTrue, hOk, hNew⟩
  · subst hFalse hSame
    cases hAdv
    exact unowned_booked hAcc hCall rfl rfl hAcc.state (fun _ => rfl) rfl
  · subst hTrue hNew
    cases hAdv
    exact unowned_booked hAcc hCall rfl rfl (claim_shows hAcc hOk) (claim_regions s.machine eid) rfl

theorem leaveCheck_booked {kind : LeaveKind} (hCall : s.calls h = .leaveCheck kind regs)
    (hAdv : advance P K s.machine h (.leaveCheck kind regs) = some (r, m')) :
    Booked A .silent (s.moved h m' r.call) := by
  simp only [advance] at hAdv
  rcases hCheck : leaveCheck s.machine (s.machine.cpus h).eid with ⟨ok, m₁⟩
  rw [hCheck] at hAdv
  rcases leaveCheck_cases hCheck with ⟨hFalse, hSame⟩ | ⟨hTrue, hRunning, hNew⟩
  · subst hFalse hSame
    cases hAdv
    exact unowned_booked hAcc hCall rfl rfl hAcc.state (fun _ => rfl) rfl
  · subst hTrue hNew
    cases hAdv
    exact unowned_booked hAcc hCall rfl rfl (unclaim_shows hAcc hRunning)
      (unclaim_regions s.machine _) rfl

theorem enterSwitch_booked (hCall : s.calls h = .enterSwitch eid load regs)
    (hAdv : advance P K s.machine h (.enterSwitch eid load regs) = some (r, m')) :
    Booked A .silent (s.moved h m' r.call) := by
  rcases bind_eq_some_iff.mp hAdv with ⟨⟨regs', m₁⟩, hSwitch, hEq⟩
  cases hEq
  exact switch_booked hAcc hCall rfl rfl (contextSwitchToEnclave_frame hSwitch)

theorem leaveSwitch_booked {kind : LeaveKind} (hCall : s.calls h = .leaveSwitch eid kind regs)
    (hAdv : advance P K s.machine h (.leaveSwitch eid kind regs) = some (r, m')) :
    Booked A .silent (s.moved h m' r.call) := by
  rcases bind_eq_some_iff.mp hAdv with ⟨⟨regs', m₁⟩, hSwitch, hEq⟩
  cases hEq
  exact switch_booked hAcc hCall rfl rfl (contextSwitchToHost_frame hSwitch)

/- Every step of a call is one of the ledger. -/
theorem advance_booked (hOk : NotBusy s (.advance h))
    (hAdv : advance P K s.machine h (s.calls h) = some (r, m')) :
    Booked A (callLabel P s.machine (s.calls h)) (s.moved h m' r.call) := by
  generalize hCall : s.calls h = c at hAdv ⊢
  cases c with
  | idle => cases hAdv
  | createAlloc args => exact createAlloc_booked hAcc hCall hAdv
  | createEpm args eid => exact createEpm_booked hAcc hCall hAdv
  | createUtm args eid region => exact createUtm_booked hAcc hCall hAdv
  | createSetup args eid region sharedRegion => exact createSetup_booked hAcc hCall hAdv
  | createPublish eid region sharedRegion => exact createPublish_booked hAcc hCall hAdv
  | createUnset eid region sharedRegion ret => exact createUnset_booked hAcc hCall hAdv
  | createFreeShared eid region sharedRegion ret =>
    cases hAdv
    exact createFreeShared_booked hAcc hCall
  | createFreeRegion eid region ret =>
    cases hAdv
    exact createFreeRegion_booked hAcc hCall
  | createFreeEid eid ret =>
    cases hAdv
    exact freeEid_booked hAcc hCall rfl (.inl rfl)
  | destroyCheck eid => exact destroyCheck_booked hAcc hOk hCall hAdv
  | destroyClear eid i => exact destroyClear_booked hAcc hCall hAdv
  | destroyFree eid i rid =>
    cases hAdv
    exact destroyFree_booked hAcc hCall
  | destroyFreeUtm eid =>
    cases hAdv
    exact destroyFreeUtm_booked hAcc hCall
  | destroyReset eid =>
    cases hAdv
    exact destroyReset_booked hAcc hCall
  | destroyFreeEid eid =>
    cases hAdv
    exact freeEid_booked hAcc hCall rfl (.inr rfl)
  | enterCheck eid load regs => exact enterCheck_booked hAcc hCall hAdv
  | enterSwitch eid load regs => exact enterSwitch_booked hAcc hCall hAdv
  | leaveCheck kind regs => exact leaveCheck_booked hAcc hCall hAdv
  | leaveSwitch eid kind regs => exact leaveSwitch_booked hAcc hCall hAdv

end

theorem dispatch_owns (m : Machine) (a : Arrival) : (dispatch m a).owns = none := by
  unfold dispatch sbiCall
  repeat' split
  all_goals rfl

theorem start_booked {a : Arrival} (hAcc : Accounts s A) (hIdle : s.calls a.hart = .idle) :
    Booked A .silent (s.moved a.hart (s.machine.arrive a) (dispatch (s.machine.arrive a) a)) :=
  unowned_booked hAcc hIdle rfl (dispatch_owns _ _) hAcc.state (fun _ => rfl) rfl

theorem initLabel_ne_alloc (i : Option RegionInitRet) (eid : Nat) : initLabel i ≠ .alloc eid := by
  unfold initLabel
  repeat' split
  all_goals nofun

theorem alloc_label {e : Event} (hLabel : eventLabel P s e = .alloc eid) : eid < P.enclMax ∧
    (s.machine.enclaves eid).state = .invalid := by
  cases e with
  | start a => cases hLabel
  | advance h =>
    simp only [eventLabel] at hLabel
    generalize s.calls h = c at hLabel
    cases c with
    | createAlloc args =>
      simp only [callLabel] at hLabel
      rcases hAlloc : enclAllocEid P s.machine with ⟨slot, m₁⟩
      rw [hAlloc] at hLabel
      rcases enclAllocEid_cases hAlloc with ⟨hNone, _⟩ | ⟨e, hSome, hLt, hFree, _⟩
      · subst hNone
        split at hLabel <;> cases hLabel
      · subst hSome
        split at hLabel
        · cases hLabel
          exact ⟨hLt, hFree⟩
        · cases hLabel
    | createEpm args e | createUtm args e region => exact absurd hLabel (initLabel_ne_alloc _ _)
    | destroyCheck e | destroyFreeUtm e =>
      simp only [callLabel] at hLabel
      split at hLabel <;> cases hLabel
    | _ => cases hLabel

/- The ledger has no slot past `ENCL_MAX`. -/
def Books (P : Platform) (s : System) (A : Nat → Phase Nat Nat) : Prop :=
  Accounts s A ∧ ∀ eid, P.enclMax ≤ eid → A eid = .free

theorem simulates (P : Platform) (K : Crypto) : Simulates (System.step P K) (eventLabel P) NotBusy
    (Books P) := by
  refine ⟨fun _ _ hBooks => hBooks.1.apart, ?_⟩
  rintro s e s' A ⟨hAcc, hBound⟩ hOk hStep
  have hBooked : Booked A (eventLabel P s e) s' := by
    cases e with
    | start a =>
      simp only [System.step] at hStep
      split at hStep
      · rename_i hIdle
        cases hStep
        exact start_booked hAcc hIdle
      · cases hStep
    | advance h =>
      rcases map_eq_some_iff.mp hStep with ⟨⟨r, m'⟩, hAdv, hEq⟩
      cases hEq
      exact advance_booked hAcc hOk hAdv
  rcases hBooked with ⟨A', hLedger, hAcc'⟩
  refine ⟨A', hLedger, hAcc', ?_⟩
  intro eid hLe
  refine hLedger.stays_free (hBound eid hLe) ?_
  intro hLabel
  exact absurd (alloc_label hLabel).1 (Nat.not_lt.mpr hLe)

end Keystone
