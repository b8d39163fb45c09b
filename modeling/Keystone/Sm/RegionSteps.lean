import Keystone.Sm.Effects

/- The region invariant holds in every state between calls. Entering and leaving change neither the
   table nor the regions of a slot. A create adds two owners with fresh regions, and a destroy
   removes two owners with theirs. -/

----
-- Slots After A Switch
----

namespace Keystone

open Function (update_of_ne update_self)
open Riscv
open Owner (rid)
open Machine (claim destroyed entered left setEnclave unclaim)

variable {P : Platform} {m : Machine} {load : Bool} {regs : TrapRegs} {c : PmpBank}
variable {e : Nat} {o : Owner} {a : Arrival}

theorem entered_slot (m : Machine) (h eid : Nat) (regs : TrapRegs) (load : Bool) (c : PmpBank)
    (e : Nat) : ((m.claim eid).entered h eid regs load c).enclaves e = if e = eid then
        { m.enclaves eid with
          state := .running
          nThread := (m.enclaves eid).nThread + 1#32
          thread :=
            (swapContext (m.enclaves eid).thread regs
              (m.harts h).csrs true).1 }
      else m.enclaves e := by
  by_cases hEq : e = eid
  · simp [entered, claim, setEnclave, hEq]
  · simp [entered, claim, setEnclave, hEq]

theorem left_slot (m : Machine) (h eid : Nat) (regs : TrapRegs) (returnOnResume : Bool)
    (c : PmpBank) (e : Nat) :
    ((m.unclaim eid).left h eid regs returnOnResume c).enclaves e = if e = eid then
        { m.enclaves eid with
          nThread := (m.enclaves eid).nThread - 1#32
          state :=
            if (m.enclaves eid).nThread - 1#32 = 0#32 then
              .stopped
            else .running
          thread :=
            (swapContext (m.enclaves eid).thread regs
              (m.harts h).csrs returnOnResume).1 }
      else m.enclaves e := by
  by_cases hEq : e = eid
  · simp [left, unclaim, setEnclave, hEq]
  · simp [left, unclaim, setEnclave, hEq]

theorem Enterable.used {eid : Nat} (hOk : Enterable P m eid load) :
    (m.enclaves eid).state ≠ .invalid := by
  intro hInvalid
  have hExists := hOk.1
  simp [enclaveExists, hInvalid, EnclaveState.code] at hExists

theorem entered_kept {h eid : Nat} (hUsed : (m.enclaves eid).state ≠ .invalid)
    (e : Nat) :
    SlotKept (m.enclaves e) (((m.claim eid).entered h eid regs load c).enclaves e) := by
  rw [entered_slot]
  by_cases hEq : e = eid
  · rw [hEq, if_pos rfl]
    exact ⟨rfl, rfl, rfl, .inr ⟨hUsed, .inl rfl⟩⟩
  · rw [if_neg hEq]
    exact SlotKept.refl _

theorem left_kept {h eid : Nat} {returnOnResume : Bool}
    (hUsed : (m.enclaves eid).state ≠ .invalid)
    (e : Nat) :
    SlotKept (m.enclaves e) (((m.unclaim eid).left h eid regs returnOnResume c).enclaves e) := by
  rw [left_slot]
  by_cases hEq : e = eid
  · rw [hEq, if_pos rfl]
    refine ⟨rfl, rfl, rfl, .inr ⟨hUsed, ?_⟩⟩
    by_cases hLast : (m.enclaves eid).nThread - 1#32 = 0#32
    · exact .inr (if_pos hLast)
    · exact .inl (if_neg hLast)
  · rw [if_neg hEq]
    exact SlotKept.refl _

theorem used_of_running {eid : Nat} (hOk : (m.enclaves eid).state = .running) :
    (m.enclaves eid).state ≠ .invalid := by
  rw [hOk]
  decide

----
-- Creation
----

open Bits

variable {K : Crypto} {h eid region shared : Nat} {args : CreateArgs} {t t' : PmpTable}

/- The two table entries that an accepted create adds. -/
structure AddsPair (m : Machine) (region shared : Nat) (t' : PmpTable) : Prop where
  ne : region ≠ shared
  fresh : isPmpRegionValid m.pmp region = false
  fresh_shared : isPmpRegionValid m.pmp shared = false
  keeps : ∀ i ≠ region, i ≠ shared → t'.regions i = m.pmp.regions i
  valid : ∀ i, isPmpRegionValid t' i = (isPmpRegionValid m.pmp i || decide (i = region) ||
        decide (i = shared))

theorem CreateAccepted.addsPair (hAcc : CreateAccepted P m args eid region shared t t') :
    AddsPair m region shared t' := by
  rcases hAcc.epm.addsEntry with ⟨_, _, _, hEpm⟩
  rcases hAcc.utm.addsEntry with ⟨_, _, _, hUtm⟩
  have hFresh := hAcc.utm.fresh
  rw [hEpm.valid, Bool.or_eq_false_iff, decide_eq_false_iff_not] at hFresh
  refine ⟨fun hEq => hFresh.2 hEq.symm, hAcc.epm.fresh, hFresh.1, ?_, ?_⟩
  · intro i hRegion hShared
    rw [hUtm.regions_ne hShared, hEpm.regions_ne hRegion]
  · intro i
    rw [hUtm.valid, hEpm.valid]

theorem CreateAccepted.epm_region (hAcc : CreateAccepted P m args eid region shared t t') :
    t'.regions region = t.regions region := by
  rcases hAcc.utm.addsEntry with ⟨_, _, _, hUtm⟩
  exact hUtm.regions_ne hAcc.addsPair.ne

theorem created_slot_ne (hNe : e ≠ eid) : (m.created P K h eid args region shared t').enclaves e =
    m.enclaves e :=
  update_of_ne hNe _ _

theorem created_slot_self : (m.created P K h eid args region shared t').enclaves eid =
    createdSlot K m h eid args region shared :=
  update_self _ _ _

theorem created_rid_epm : rid (m.created P K h eid args region shared t')
    (.epm eid) = region := by
  simp [rid, created_slot_self, createdSlot]

theorem created_rid_utm : rid (m.created P K h eid args region shared t')
    (.utm eid) = shared := by
  simp [rid, created_slot_self, createdSlot]

/- The owner is not the enclave in slot `eid`. -/
def Owner.Apart (o : Owner) (eid : Nat) : Prop := o ≠ .epm eid ∧ o ≠ .utm eid

theorem created_owner (hApart : o.Apart eid) :
    rid (m.created P K h eid args region shared t') o = rid m o ∧
    (Owner.Live (m.created P K h eid args region shared t') o ↔ Owner.Live m o) := by
  cases o with
  | sm | os => exact ⟨rfl, Iff.rfl⟩
  | epm e =>
    have hNe : e ≠ eid := by
      intro hEq
      exact hApart.1 (by rw [hEq])
    simp only [rid, Owner.Live, created_slot_ne hNe, and_self]
  | utm e =>
    have hNe : e ≠ eid := by
      intro hEq
      exact hApart.2 (by rw [hEq])
    simp only [rid, Owner.Live, created_slot_ne hNe, and_self]

theorem Owner.apart_of_live (hLive : o.Live m) (hFree : (m.enclaves eid).state = .invalid) :
    o.Apart eid := by
  constructor
  · rintro rfl
    exact hLive hFree
  · rintro rfl
    exact hLive hFree

theorem Owner.cases_apart (o : Owner) (eid : Nat) : o = .epm eid ∨ o = .utm eid ∨ o.Apart eid := by
  by_cases hEpm : o = .epm eid
  · exact .inl hEpm
  · by_cases hUtm : o = .utm eid
    · exact .inr (.inl hUtm)
    · exact .inr (.inr ⟨hEpm, hUtm⟩)

section

variable (hInv : RegionInv P m) (hAcc : CreateAccepted P m args eid region shared t t')
include hInv hAcc

theorem created_old
    (hApart : o.Apart eid) (hLive : Owner.Live (m.created P K h eid args region shared t') o) :
    Owner.Live m o ∧ rid (m.created P K h eid args region shared t') o = rid m o ∧
    isPmpRegionValid m.pmp (rid m o) = true ∧ rid m o ≠ region ∧
    rid m o ≠ shared ∧ t'.regions (rid m o) = Owner.region m o := by
  have hPair := hAcc.addsPair
  have hLive' : Owner.Live m o := (created_owner hApart).2.mp hLive
  have hValid := hInv.valid o hLive'
  have hRegion : rid m o ≠ region := by
    intro hEq
    rw [hEq, hPair.fresh] at hValid
    cases hValid
  have hShared : rid m o ≠ shared := by
    intro hEq
    rw [hEq, hPair.fresh_shared] at hValid
    cases hValid
  exact ⟨hLive', (created_owner hApart).1, hValid, hRegion, hShared, hPair.keeps _ hRegion hShared⟩

theorem CreateAccepted.describes :
    Describes P (.epm eid) (t'.regions region) ∧ Describes P (.utm eid) (t'.regions shared) := by
  constructor
  · rw [hAcc.epm_region]
    have hPlaced := hAcc.epm.placed hInv.taken
    exact ⟨hAcc.epm.range.2.2, hPlaced.1, hAcc.epm.regIdx_lt, hPlaced.2⟩
  · exact ⟨hAcc.utm.range.2.2, hAcc.utm.bottom.2, hAcc.utm.bottom.1⟩

theorem regionInv_created :
    RegionInv P (m.created P K h eid args region shared t') := by
  have hPair := hAcc.addsPair
  have hDesc := hAcc.describes hInv
  have hTable : TableInv P t' := tableInv_define (tableInv_define hInv.table hAcc.epm) hAcc.utm
  have hLiveEpm : Owner.Live (m.created P K h eid args region shared t') (.epm eid) := by
    simp [Owner.Live, created_slot_self, createdSlot]
  have hLiveUtm : Owner.Live (m.created P K h eid args region shared t') (.utm eid) := by
    simp [Owner.Live, created_slot_self, createdSlot]
  refine ⟨hTable, ?_, ?_, ?_, ?_, ?_, ?_, ?_, ?_, ?_⟩
  · intro e
    by_cases hEq : e = eid
    · rw [hEq, created_slot_self]
      simp [createdSlot]
    · rw [created_slot_ne hEq]
      exact hInv.settled e
  · intro e hState
    by_cases hEq : e = eid
    · rw [hEq]
      exact hAcc.slot_lt
    · rw [created_slot_ne hEq] at hState
      exact hInv.slot_lt e hState
  · intro e hState
    by_cases hEq : e = eid
    · rw [hEq, created_slot_self]
      refine ⟨?_, ?_, ?_⟩
      · simp [createdSlot]
      · simp [createdSlot]
      · intro i hi
        have hOne : i ≠ 1 := by omega
        have hZero : i ≠ 0 := by omega
        simp only [createdSlot]
        rw [update_of_ne hOne, update_of_ne hZero]
        exact hInv.unused eid hAcc.slot_free i
    · rw [created_slot_ne hEq] at hState ⊢
      exact hInv.shape e hState
  · intro e hState
    by_cases hEq : e = eid
    · rw [hEq, created_slot_self] at hState
      cases hState
    · rw [created_slot_ne hEq] at hState ⊢
      exact hInv.unused e hState
  · intro o ho
    have hValid := hPair.valid
    change isPmpRegionValid t' _ = true
    rcases o.cases_apart eid with hEq | hEq | hApart
    · rw [hEq, created_rid_epm, hValid]
      simp
    · rw [hEq, created_rid_utm, hValid]
      simp
    · rcases created_old hInv hAcc hApart ho with ⟨_, hRid, hOld, _⟩
      rw [hRid, hValid, hOld]
      rfl
  · -- an old owner keeps away from both fresh entries
    intro o o' ho ho' hRid
    rcases o.cases_apart eid with hEq | hEq | hApart <;>
      rcases o'.cases_apart eid with hEq' | hEq' | hApart'
    · rw [hEq, hEq']
    · rw [hEq, hEq', created_rid_epm, created_rid_utm] at hRid
      exact absurd hRid hPair.ne
    · rcases created_old hInv hAcc hApart' ho' with ⟨_, hRid', _, hNe, _⟩
      rw [hEq, created_rid_epm, hRid'] at hRid
      exact absurd hRid.symm hNe
    · rw [hEq, hEq', created_rid_epm, created_rid_utm] at hRid
      exact absurd hRid.symm hPair.ne
    · rw [hEq, hEq']
    · rcases created_old hInv hAcc hApart' ho' with ⟨_, hRid', _, _, hNe, _⟩
      rw [hEq, created_rid_utm, hRid'] at hRid
      exact absurd hRid.symm hNe
    · rcases created_old hInv hAcc hApart ho with ⟨_, hRid', _, hNe, _⟩
      rw [hEq', created_rid_epm, hRid'] at hRid
      exact absurd hRid hNe
    · rcases created_old hInv hAcc hApart ho with ⟨_, hRid', _, _, hNe, _⟩
      rw [hEq', created_rid_utm, hRid'] at hRid
      exact absurd hRid hNe
    · rcases created_old hInv hAcc hApart ho with ⟨hLive, hOld, _⟩
      rcases created_old hInv hAcc hApart' ho' with ⟨hLive', hOld', _⟩
      rw [hOld, hOld'] at hRid
      exact hInv.inj o o' hLive hLive' hRid
  · intro i hi
    change isPmpRegionValid t' i = true at hi
    rw [hPair.valid] at hi
    simp only [Bool.or_eq_true, decide_eq_true_eq] at hi
    rcases hi with (hOld | hEq) | hEq
    · rcases hInv.owner i hOld with ⟨o, ho, hRid⟩
      have hApart := Owner.apart_of_live ho hAcc.slot_free
      exact ⟨o, (created_owner hApart).2.mpr ho, (created_owner hApart).1.trans hRid⟩
    · exact ⟨.epm eid, hLiveEpm, created_rid_epm.trans hEq.symm⟩
    · exact ⟨.utm eid, hLiveUtm, created_rid_utm.trans hEq.symm⟩
  · intro o ho
    change Describes P o (t'.regions _)
    rcases o.cases_apart eid with hEq | hEq | hApart
    · rw [hEq, created_rid_epm]
      exact hDesc.1
    · rw [hEq, created_rid_utm]
      exact hDesc.2
    · rcases created_old hInv hAcc hApart ho with ⟨hLive, hRid, _, _, _, hRegion⟩
      rw [hRid, hRegion]
      exact hInv.desc o hLive
  · change testBit t'.regBitmap 0 = true
    rw [hAcc.utm.regBitmap (by omega), hAcc.epm.regBitmap (by omega), hInv.taken]
    rfl

end

----
-- Destruction
----

theorem destroyed_slot_ne (hNe : e ≠ eid) : (m.destroyed P eid).enclaves e = m.enclaves e :=
  update_of_ne hNe _ _

theorem destroyed_state_self : ((m.destroyed P eid).enclaves eid).state = .invalid := by
  simp [destroyed]

theorem destroyed_live_iff (o : Owner) : Owner.Live (m.destroyed P eid) o ↔
    Owner.Live m o ∧ o.Apart eid := by
  cases o with
  | sm | os => simp [Owner.Live, Owner.Apart]
  | epm e | utm e =>
    by_cases hEq : e = eid
    · subst hEq
      simp [Owner.Live, Owner.Apart, destroyed_state_self]
    · simp [Owner.Live, Owner.Apart, destroyed_slot_ne hEq, hEq]

theorem destroyed_rid (hApart : o.Apart eid) : rid (m.destroyed P eid) o = rid m o := by
  cases o with
  | sm | os => rfl
  | epm e =>
    have hNe : e ≠ eid := by
      intro hEq
      exact hApart.1 (by rw [hEq])
    simp only [rid, destroyed_slot_ne hNe]
  | utm e =>
    have hNe : e ≠ eid := by
      intro hEq
      exact hApart.2 (by rw [hEq])
    simp only [rid, destroyed_slot_ne hNe]

theorem destroyed_valid (i : Nat) : isPmpRegionValid (m.destroyed P eid).pmp i =
    (isPmpRegionValid m.pmp i && decide (i ≠ rid m (.epm eid)) &&
      decide (i ≠ rid m (.utm eid))) := by
  simp only [destroyed, isPmpRegionValid_release]

theorem destroyed_regions {i : Nat} (hEpm : i ≠ rid m (.epm eid))
    (hUtm : i ≠ rid m (.utm eid)) : (m.destroyed P eid).pmp.regions i = m.pmp.regions i := by
  simp only [destroyed]
  rw [regions_release_ne _ hUtm, regions_release_ne _ hEpm]

section

variable (hInv : RegionInv P m) (hUsed : (m.enclaves eid).state ≠ .invalid)
include hInv hUsed

theorem destroyed_old
    (hLive : Owner.Live m o) (hApart : o.Apart eid) :
    rid m o ≠ rid m (.epm eid) ∧ rid m o ≠ rid m (.utm eid) ∧
    Owner.region (m.destroyed P eid) o = Owner.region m o := by
  have hEpm : rid m o ≠ rid m (.epm eid) := by
    intro hEq
    exact hApart.1 (hInv.inj o (.epm eid) hLive hUsed hEq)
  have hUtm : rid m o ≠ rid m (.utm eid) := by
    intro hEq
    exact hApart.2 (hInv.inj o (.utm eid) hLive hUsed hEq)
  refine ⟨hEpm, hUtm, ?_⟩
  rw [Owner.region, destroyed_rid hApart, destroyed_regions hEpm hUtm, Owner.region]

theorem regionInv_destroyed :
    RegionInv P (m.destroyed P eid) := by
  refine ⟨tableInv_release (tableInv_release hInv.table _) _, ?_, ?_, ?_, ?_, ?_, ?_, ?_, ?_, ?_⟩
  · intro e
    by_cases hEq : e = eid
    · rw [hEq, destroyed_state_self]
      simp
    · rw [destroyed_slot_ne hEq]
      exact hInv.settled e
  · intro e hState
    by_cases hEq : e = eid
    · rw [hEq, destroyed_state_self] at hState
      exact absurd rfl hState
    · rw [destroyed_slot_ne hEq] at hState
      exact hInv.slot_lt e hState
  · intro e hState
    by_cases hEq : e = eid
    · rw [hEq, destroyed_state_self] at hState
      exact absurd rfl hState
    · rw [destroyed_slot_ne hEq] at hState ⊢
      exact hInv.shape e hState
  · intro e hState i
    by_cases hEq : e = eid
    · subst hEq
      simp only [destroyed, update_self]
      split
      · rfl
      · rename_i hMax
        have hTwo := P.two_le_enclaveRegionsMax
        exact (hInv.shape e hUsed).rest i (by omega)
    · rw [destroyed_slot_ne hEq] at hState ⊢
      exact hInv.unused e hState i
  · intro o ho
    rcases (destroyed_live_iff o).mp ho with ⟨hLive, hApart⟩
    rcases destroyed_old hInv hUsed hLive hApart with ⟨hEpm, hUtm, _⟩
    rw [destroyed_rid hApart, destroyed_valid, hInv.valid o hLive]
    simp [hEpm, hUtm]
  · intro o o' ho ho' hRid
    rcases (destroyed_live_iff o).mp ho with ⟨hLive, hApart⟩
    rcases (destroyed_live_iff o').mp ho' with ⟨hLive', hApart'⟩
    rw [destroyed_rid hApart, destroyed_rid hApart'] at hRid
    exact hInv.inj o o' hLive hLive' hRid
  · intro i hi
    rw [destroyed_valid] at hi
    simp only [Bool.and_eq_true, decide_eq_true_eq] at hi
    rcases hInv.owner i hi.1.1 with ⟨o, hLive, hRid⟩
    have hApart : o.Apart eid := by
      constructor
      · intro hEq
        rw [hEq] at hRid
        exact hi.1.2 hRid.symm
      · intro hEq
        rw [hEq] at hRid
        exact hi.2 hRid.symm
    exact ⟨o, (destroyed_live_iff o).mpr ⟨hLive, hApart⟩, (destroyed_rid hApart).trans hRid⟩
  · intro o ho
    rcases (destroyed_live_iff o).mp ho with ⟨hLive, hApart⟩
    rw [(destroyed_old hInv hUsed hLive hApart).2.2]
    exact hInv.desc o hLive
  · -- neither region of an enclave uses register 0
    have hTwo := P.two_le_pmpNReg
    have hEpm := hInv.desc (.epm eid) hUsed
    have hUtm := hInv.desc (.utm eid) hUsed
    have hNe : rid m (.utm eid) ≠ rid m (.epm eid) := by
      intro hEq
      cases hInv.inj (.utm eid) (.epm eid) hUsed hUsed hEq
    have hUtmZero : usesReg (Owner.region m (.utm eid)) 0 = false := by
      cases hUses : usesReg (Owner.region m (.utm eid)) 0 with
      | false => rfl
      | true =>
        have hIdx := (usesReg_of_napot hUtm.2.1 0).mp hUses
        rw [hUtm.2.2] at hIdx
        omega
    simp only [destroyed]
    rw [regBitmap_release, regBitmap_release, regions_release_ne _ hNe]
    simp only [Owner.region] at hUtmZero
    have hEpmZero := hEpm.2.2.2
    simp only [Owner.region] at hEpmZero
    rw [hInv.taken, hEpmZero, hUtmZero]
    rfl

end

----
-- Runs
----

variable {keys : Keys} {m' : Machine}

theorem regionInv_effect {out : Outcome} (hInv : RegionInv P m) (hEffect : Effect P K m a out m') :
    RegionInv P m' := by
  have hArrive := hInv.arrive a
  cases hEffect with
  | quiet mem _ _ =>
    exact hArrive.frame rfl rfl rfl fun _ => SlotKept.refl _
  | created args eid region shared t t' _ _ _ hAcc => exact regionInv_created hArrive hAcc
  | destroyed eid _ _ _ hOk => exact regionInv_destroyed hArrive (destroyable_used hOk)
  | entered eid load c _ _ _ hOk _ => exact hArrive.frame rfl rfl rfl (entered_kept hOk.used)
  | left kind regs c _ _ hOk _ =>
    exact hArrive.frame rfl rfl rfl (left_kept (used_of_running hOk))

theorem regionInv_step (hInv : RegionInv P m) (hStep : smStep P K keys m a = some m') :
    RegionInv P m' := by
  rcases smStep_effect hInv hStep with ⟨out, _, hEffect⟩
  exact regionInv_effect hInv hEffect

theorem regionInv_run {boot : Nat → Hart} {mem : Memory} {as : List Arrival}
    (hInit : smInit P boot mem = some m) (hRun : Runs.exec (smStep P K keys) m as = some m') :
    RegionInv P m' :=
  Runs.exec_invariant (fun _ _ _ hs hStep => regionInv_step hs hStep) (regionInv_smInit hInit) hRun

end Keystone
