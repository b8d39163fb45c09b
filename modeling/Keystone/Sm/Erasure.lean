import Keystone.Sm.Creation

/-
  `destroy_enclave` step by step.

  The atomic model of the call says what it leaves behind. Here the call is taken apart: the wipe
  clears one byte after the other, every hart makes the register writes of `pmp_unset` in its own
  time, and the region table, the metadata and the slot are released one after the other. In none of
  the states in between the host reaches a byte of the private memory that is not yet zero.
-/

----
-- Steps
----

namespace Keystone

open BitVec (isLt ofNat ofNat_toNat setWidth_eq)
open Riscv
open Owner (region rid)

variable {p p' : DestroyPhase}

/- The registers after each single write of `PMP_UNSET`. -/
def pmpUnsetRegWrites (P : Platform) (c : PmpBank) (n : Nat) : List PmpBank :=
  [writeAddr .rv64 P.pmpNReg c n 0#64, pmpUnsetReg P c n]

/- The registers after each single write of `pmp_unset`. -/
def pmpUnsetWrites (P : Platform) (r : PmpRegion) (c : PmpBank) : List PmpBank :=
  pmpUnsetRegWrites P c r.regIdx ++ if regionNeedsTwoEntries r then
      pmpUnsetRegWrites P (pmpUnsetReg P c r.regIdx) (r.regIdx - 1)
    else []

/- Where a destroy stands: before its lock section, at the head of the loop, behind `k` bytes of a
   wipe, with register writes pending on the harts, before the release of a region, and before each
   of the last three statements. -/
inductive DestroyPhase where
| check
| region (i : Nat)
| wipe (i k : Nat)
| unset (i : Nat) (pending : Nat → List PmpBank)
| release (i : Nat)
| shared
| metadata
| slot
| returned

/- The harts in `s` make their next register write. -/
def Machine.writeNext (m : Machine) (pending : Nat → List PmpBank) (s : Nat → Bool) : Machine :=
  { m with
    harts := fun h =>
      if s h then
        { m.harts h with pmp := (pending h).headD (m.harts h).pmp }
      else m.harts h }

/- The region id and the table entry of memory region `i`. -/
def slotRid (m : Machine) (eid i : Nat) : Nat := ((m.enclaves eid).regions i).pmpRid

def slotEntry (m : Machine) (eid i : Nat) : PmpRegion := m.pmp.regions (slotRid m eid i)

/- The loop passes over memory region `i`. -/
def Skipped (m : Machine) (eid i : Nat) : Prop :=
  ((m.enclaves eid).regions i).type = .invalid ∨ ((m.enclaves eid).regions i).type = .utm

/- One step of an accepted `destroy_enclave(eid)`. -/
inductive DestroyStep (P : Platform) (eid : Nat) : DestroyPhase × Machine → DestroyPhase × Machine →
      Prop where
| lock (m m' : Machine) (hCheck : destroyCheck P m eid = (true, m')) : DestroyStep P eid (.check, m)
      (.region 0, m'.setEnclave eid (platformDestroyEnclave (m'.enclaves eid)))
| skip (m : Machine) (i : Nat) (hLt : i < P.enclaveRegionsMax) (hSkip : Skipped m eid i) :
    DestroyStep P eid (.region i, m) (.region (i + 1), m)
| pick (m : Machine) (i : Nat) (hLt : i < P.enclaveRegionsMax) (hPick : ¬ Skipped m eid i) :
    DestroyStep P eid (.region i, m) (.wipe i 0, m)
| clear (m : Machine) (i k : Nat) (hLt : k < (slotEntry m eid i).size.toNat) :
    DestroyStep P eid (.wipe i k, m) (.wipe i (k + 1), m.setMem (Function.update m.mem
          ((slotEntry m eid i).addr + ofNat 64 k) 0))
| cleared (m : Machine) (i k : Nat) (hEnd : k = (slotEntry m eid i).size.toNat) :
    DestroyStep P eid (.wipe i k, m) (.unset i fun h =>
        if isPmpRegionValid m.pmp (slotRid m eid i) then
          pmpUnsetWrites P (slotEntry m eid i) (m.harts h).pmp
        else [], m)
| unset (m : Machine) (i : Nat) (pending : Nat → List PmpBank) (s : Nat → Bool) :
    DestroyStep P eid (.unset i pending, m) (.unset i fun h =>
        if s h then (pending h).tail else pending h,
        m.writeNext pending s)
| synced (m : Machine) (i : Nat) (pending : Nat → List PmpBank) (hDone : ∀ h, pending h = []) :
    DestroyStep P eid (.unset i pending, m) (.release i, m)
| release (m : Machine) (i : Nat) : DestroyStep P eid (.release i, m)
      (.region (i + 1), m.freeRegion (slotRid m eid i))
| behind (m : Machine) (i : Nat) (hEnd : i = P.enclaveRegionsMax) :
    DestroyStep P eid (.region i, m) (.shared, m)
| shared (m : Machine) : DestroyStep P eid (.shared, m) (.metadata, destroyUtm P m eid)
| metadata (m : Machine) : DestroyStep P eid (.metadata, m) (.slot, destroyMetadata P m eid)
| slot (m : Machine) : DestroyStep P eid (.slot, m) (.returned, enclFreeEid m eid)

/- The states that a destroy of `m` goes through. -/
def DestroyVisits (P : Platform) (m : Machine) (eid : Nat) (phase : DestroyPhase)
    (t : Machine) : Prop :=
  Relation.ReflTransGen (DestroyStep P eid) (.check, m) (phase, t)

----
-- What Each Phase Has Done
----

open Riscv ByteMemory

/- The machine behind `k` bytes of the wipe. -/
def Machine.wipedTo (m : Machine) (eid k : Nat) : Machine :=
  (m.marked eid).setMem (memset m.mem (region m (.epm eid)).addr 0 (ofNat 64 k))

/- The machine behind the whole wipe. -/
def Machine.wiped (m : Machine) (eid : Nat) : Machine :=
  m.wipedTo eid (region m (.epm eid)).size.toNat

/- The harts with some of the register writes made: only the registers differ from the wiped
   machine, and the writes that are pending lead to those of `pmp_unset`. -/
structure Unsetting (P : Platform) (m : Machine) (eid : Nat) (pending : Nat → List PmpBank)
    (t : Machine) : Prop where
  rest : t = { m.wiped eid with harts := t.harts }
  hart : ∀ h, t.harts h = { m.harts h with pmp := (t.harts h).pmp }
  bank : ∀ h, (pending h).getLastD (t.harts h).pmp = pmpUnsetBank P (region m (.epm eid))
        (m.harts h).pmp

/- The machine in each phase of a destroy of `m`. -/
def DestroyAt (P : Platform) (m : Machine) (eid : Nat) : DestroyPhase → Machine → Prop
| .check, t => t = m
| .region 0, t => t = m.marked eid
| .region (i + 1), t => i + 1 ≤ P.enclaveRegionsMax ∧ t = m.erased P eid
| .wipe i k, t => i = 0 ∧ k ≤ (region m (.epm eid)).size.toNat ∧ t = m.wipedTo eid k
| .unset i pending, t => i = 0 ∧ Unsetting P m eid pending t
| .release i, t =>
  i = 0 ∧ t = (m.wiped eid).onEveryHart (pmpUnsetBank P (region m (.epm eid)))
| .shared, t => t = m.erased P eid
| .metadata, t => t = destroyUtm P (m.erased P eid) eid
| .slot, t => t = destroyMetadata P (destroyUtm P (m.erased P eid) eid) eid
| .returned, t => t = m.destroyed P eid

variable {P : Platform} {m t t' : Machine} {eid : Nat}

theorem wipedTo_zero (m : Machine) (eid : Nat) : m.wipedTo eid 0 = m.marked eid := by
  unfold Machine.wipedTo
  rw [memset_zero]
  rfl

theorem wipedTo_harts (m : Machine) (eid k : Nat) : (m.wipedTo eid k).harts = m.harts := rfl

theorem wipedTo_entry (m : Machine) (eid k : Nat) : slotEntry (m.wipedTo eid k) eid 0 =
    region m (.epm eid) := by
  change m.pmp.regions (((m.marked eid).enclaves eid).regions 0).pmpRid = _
  rw [marked_regions]
  rfl

theorem wipedTo_succ (m : Machine) (eid k : Nat) (hk : k + 1 < 2 ^ 64) : (m.wipedTo eid k).setMem
    (Function.update (m.wipedTo eid k).mem ((region m (.epm eid)).addr + ofNat 64 k) 0) =
    m.wipedTo eid (k + 1) := by
  unfold Machine.wipedTo
  rw [← memset_succ _ _ _ hk]
  rfl

theorem getLastD_pmpUnsetWrites (P : Platform) (r : PmpRegion) (c d : PmpBank) :
    (pmpUnsetWrites P r c).getLastD d = pmpUnsetBank P r c := by
  unfold pmpUnsetWrites pmpUnsetRegWrites
  split
  · rename_i hTwo
    exact (if_pos hTwo).symm
  · rename_i hOne
    exact (if_neg hOne).symm

theorem getLastD_tail (cs : List PmpBank) (c : PmpBank) :
    cs.tail.getLastD (cs.headD c) = cs.getLastD c := by
  cases cs with
  | nil => rfl
  | cons d ds => exact List.getLastD_cons.symm

theorem Unsetting.start (m : Machine) (eid : Nat) : Unsetting P m eid
    (fun h => pmpUnsetWrites P (region m (.epm eid)) (m.harts h).pmp) (m.wiped eid) :=
  ⟨rfl, fun _ => rfl, fun _ => getLastD_pmpUnsetWrites _ _ _ _⟩

theorem Unsetting.next {pending : Nat → List PmpBank} (hUnset : Unsetting P m eid pending t)
    (s : Nat → Bool) : Unsetting P m eid (fun h => if s h then (pending h).tail else pending h)
    (t.writeNext pending s) := by
  refine ⟨?_, ?_, ?_⟩
  · rw [hUnset.rest]
    rfl
  · intro h
    simp only [Machine.writeNext]
    split
    · rw [hUnset.hart h]
    · exact hUnset.hart h
  · intro h
    rw [← hUnset.bank h]
    simp only [Machine.writeNext]
    split
    · exact getLastD_tail _ _
    · rfl

theorem Unsetting.done {pending : Nat → List PmpBank} (hUnset : Unsetting P m eid pending t)
    (hDone : ∀ h, pending h = []) :
    t = (m.wiped eid).onEveryHart (pmpUnsetBank P (region m (.epm eid))) := by
  have hHarts : t.harts = fun h =>
        { m.harts h with pmp := pmpUnsetBank P (region m (.epm eid)) (m.harts h).pmp } := by
    funext h
    have hBank := hUnset.bank h
    rw [hDone h, List.getLastD_nil] at hBank
    rw [hUnset.hart h, hBank]
  rw [hUnset.rest, hHarts]
  rfl

theorem onEveryHart_freeRegion (hInv : RegionInv P m) (hUsed : (m.enclaves eid).state ≠ .invalid)
    (writes : PmpBank → PmpBank) :
    let t := (m.wiped eid).onEveryHart writes
    t.freeRegion (slotRid t eid 0) = t.setPmp (m.pmp.release (rid m (.epm eid))) := by
  intro t
  have hRid : slotRid t eid 0 = rid m (.epm eid) := by
    change (((m.marked eid).enclaves eid).regions 0).pmpRid = _
    rw [marked_regions]
    rfl
  have hValid := hInv.valid (.epm eid) hUsed
  rw [hRid]
  have hPmp : t.pmp = m.pmp := rfl
  simp [Machine.freeRegion, pmpRegionFreeAtomic, hPmp, hValid]

theorem erased_eq (m : Machine) (eid : Nat) : m.erased P eid = ((m.wiped eid).onEveryHart
      (pmpUnsetBank P (region m (.epm eid)))).setPmp
    (m.pmp.release (rid m (.epm eid))) := by
  unfold Machine.wiped Machine.wipedTo Machine.erased
  rw [ofNat_toNat, setWidth_eq]
  rfl

theorem skipped_iff (hInv : RegionInv P m) (hUsed : (m.enclaves eid).state ≠ .invalid)
    (hRegions : (t.enclaves eid).regions = (m.enclaves eid).regions) (i : Nat) :
    Skipped t eid i ↔ i ≠ 0 := by
  have hShape := hInv.shape eid hUsed
  unfold Skipped
  rw [hRegions]
  match i with
  | 0 => simp [hShape.epm]
  | 1 => simp [hShape.utm]
  | j + 2 => simp [hShape.rest (j + 2) (by omega)]

/- Every step leads to the machine of the next phase. -/
theorem destroyAt_step (hInv : RegionInv P m) (hOk : destroyable P m eid = true)
    (hAt : DestroyAt P m eid p t) (hStep : DestroyStep P eid (p, t) (p', t')) :
    DestroyAt P m eid p' t' := by
  have hUsed := destroyable_used hOk
  have hMax := P.two_le_enclaveRegionsMax
  have hMarked := skipped_iff hInv hUsed (marked_regions m eid)
  have hErased : ∀ i, Skipped (m.erased P eid) eid i ↔ i ≠ 0 :=
    skipped_iff hInv hUsed (marked_regions m eid)
  cases hStep with
  | lock _ u hCheck =>
    rw [show t = m from hAt, destroyCheck, if_pos hOk] at hCheck
    cases hCheck
    exact platformDestroy_marked m eid
  | skip _ i hLt hSkip =>
    cases i with
    | zero =>
      rw [show t = m.marked eid from hAt] at hSkip
      exact absurd rfl ((hMarked 0).mp hSkip)
    | succ j => exact ⟨hLt, hAt.2⟩
  | pick _ i hLt hPick =>
    cases i with
    | zero =>
      refine ⟨rfl, Nat.zero_le _, ?_⟩
      rw [wipedTo_zero]
      exact hAt
    | succ j =>
      rw [hAt.2] at hPick
      exact absurd ((hErased (j + 1)).mpr (by omega)) hPick
  | clear _ i k hLt =>
    rcases hAt with ⟨rfl, _, rfl⟩
    rw [wipedTo_entry] at hLt ⊢
    refine ⟨rfl, hLt, ?_⟩
    exact wipedTo_succ m eid k (Nat.lt_of_le_of_lt hLt (isLt _))
  | cleared _ i k hEnd =>
    rcases hAt with ⟨rfl, _, rfl⟩
    rw [wipedTo_entry] at hEnd ⊢
    subst hEnd
    have hRid : slotRid (m.wiped eid) eid 0 = rid m (.epm eid) :=
      congrArg EnclaveRegion.pmpRid (congrFun (marked_regions m eid) 0)
    have hValid : isPmpRegionValid (m.wiped eid).pmp (slotRid (m.wiped eid) eid 0) = true := by
      rw [hRid]
      exact hInv.valid (.epm eid) hUsed
    refine ⟨rfl, ?_⟩
    change Unsetting P m eid (fun h =>
      if isPmpRegionValid (m.wiped eid).pmp (slotRid (m.wiped eid) eid 0) then _ else [])
      (m.wiped eid)
    simp only [hValid, if_true]
    exact Unsetting.start m eid
  | unset _ i pending s => exact ⟨hAt.1, hAt.2.next s⟩
  | synced _ i pending hDone => exact ⟨hAt.1, hAt.2.done hDone⟩
  | release _ i =>
    rcases hAt with ⟨rfl, rfl⟩
    refine ⟨Nat.le_of_succ_le hMax, ?_⟩
    rw [onEveryHart_freeRegion hInv hUsed]
    exact (erased_eq m eid).symm
  | behind _ i hEnd =>
    cases i with
    | zero => omega
    | succ j => exact hAt.2
  | shared _ =>
    rw [show t = m.erased P eid from hAt]
    rfl
  | metadata _ =>
    rw [show t = _ from hAt]
    rfl
  | slot _ =>
    rw [show t = _ from hAt]
    exact destroyFinish_erased hInv hUsed

----
-- Whole Calls
----

theorem destroyAt_visited (hInv : RegionInv P m) (hOk : destroyable P m eid = true)
    (hVisits : DestroyVisits P m eid p t) : DestroyAt P m eid p t := by
  have hAll : ∀ c, Relation.ReflTransGen (DestroyStep P eid) (.check, m) c →
      DestroyAt P m eid c.1 c.2 := by
    intro c hReached
    induction hReached with
    | refl => exact rfl
    | tail _ hStep ih => exact destroyAt_step hInv hOk ih hStep
  exact hAll (p, t) hVisits

theorem DestroyVisits.step (hVisits : DestroyVisits P m eid p t)
    (hStep : DestroyStep P eid (p, t) (p', t')) : DestroyVisits P m eid p' t' :=
  Relation.ReflTransGen.tail hVisits hStep

section

variable (hInv : RegionInv P m)
include hInv

section

variable (hOk : destroyable P m eid = true)
include hOk

theorem destroy_reaches_wipe (k : Nat)
    (hk : k ≤ (region m (.epm eid)).size.toNat) :
    DestroyVisits P m eid (.wipe 0 k) (m.wipedTo eid k) := by
  have hUsed := destroyable_used hOk
  have hAt : ∀ t, DestroyVisits P m eid (.wipe 0 k) t → t = m.wipedTo eid k := fun t hVisits =>
    (destroyAt_visited hInv hOk hVisits).2.2
  induction k with
  | zero =>
    have hLock : DestroyVisits P m eid (.region 0) (m.marked eid) := by
      rw [← platformDestroy_marked]
      refine Relation.ReflTransGen.single (.lock m _ ?_)
      rw [destroyCheck, if_pos hOk]
    rw [wipedTo_zero]
    refine hLock.step (.pick _ 0 ?_ ?_)
    · exact Nat.lt_of_succ_le (Nat.le_of_succ_le P.two_le_enclaveRegionsMax)
    · rw [skipped_iff hInv hUsed (marked_regions m eid)]
      simp
  | succ k ih =>
    have hBefore := ih (by omega) (fun t hVisits => (destroyAt_visited hInv hOk hVisits).2.2)
    have hNext := hBefore.step (.clear _ 0 k (by rw [wipedTo_entry]; omega))
    rw [← hAt _ hNext]
    exact hNext

theorem destroy_reaches_unset (n : Nat) (hn : n ≤ 4) :
    ∃ pending t, DestroyVisits P m eid (.unset 0 pending) t ∧ ∀ h, (pending h).length ≤ 4 - n := by
  induction n with
  | zero =>
    have hWiped := destroy_reaches_wipe hInv hOk _ (le_rfl)
    refine ⟨_, _, hWiped.step (.cleared _ 0 _ ?_), ?_⟩
    · rw [wipedTo_entry]
    · intro h
      split
      · unfold pmpUnsetWrites pmpUnsetRegWrites
        split
        · simp
        · simp
      · simp
  | succ n ih =>
    rcases ih (by omega) with ⟨pending, t, hVisits, hLength⟩
    refine ⟨_, _, hVisits.step (.unset t 0 pending fun _ => true), ?_⟩
    intro h
    have hh := hLength h
    simp only [if_true, List.length_tail]
    omega

theorem destroy_reaches_region (i : Nat)
    (hi : i + 1 ≤ P.enclaveRegionsMax) :
    DestroyVisits P m eid (.region (i + 1)) (m.erased P eid) := by
  have hUsed := destroyable_used hOk
  induction i with
  | zero =>
    rcases destroy_reaches_unset hInv hOk 4 (Nat.le_refl 4) with ⟨pending, t, hVisits, hLength⟩
    have hDone : ∀ h, pending h = [] := by
      intro h
      exact List.length_eq_zero_iff.mp (Nat.le_zero.mp (hLength h))
    have hRelease := (hVisits.step (.synced t 0 pending hDone)).step (.release t 0)
    have hAt := destroyAt_visited hInv hOk hRelease
    rw [← hAt.2]
    exact hRelease
  | succ i ih =>
    refine (ih (by omega)).step (.skip _ (i + 1) hi ?_)
    exact (skipped_iff hInv hUsed (marked_regions m eid) (i + 1)).mpr (by omega)

/- The steps of a destroy lead to the machine that the call returns with, and to no other. -/
theorem destroyVisits_returned_iff :
    DestroyVisits P m eid .returned t ↔ t = m.destroyed P eid := by
  constructor
  · exact destroyAt_visited hInv hOk
  · intro hEq
    obtain ⟨k, hk⟩ : ∃ k, P.enclaveRegionsMax = k + 1 :=
      ⟨P.enclaveRegionsMax - 1, by
        have hMax := P.two_le_enclaveRegionsMax
        omega⟩
    have hLoop := destroy_reaches_region hInv hOk k (by omega)
    have hAll := (((hLoop.step (.behind _ _ hk.symm)).step (.shared _)).step
        (.metadata _)).step (.slot _)
    rw [destroyFinish_erased hInv (destroyable_used hOk)] at hAll
    rw [hEq]
    exact hAll

end

end

----
-- Wiped Before Released
----

variable {K : Crypto} {keys : Keys}

/- What a hart in the host's context reaches of the range is zero. -/
def WipedFromHost (P : Platform) (base size : Word) (t : Machine) : Prop :=
  ∀ (h : Nat) (access : Access) (x : Nat), (t.cpus h).isEnclave = false → x < 2 ^ 56 →
      base.toNat ≤ x → x < base.toNat + size.toNat →
        allows P.pmpNReg (t.harts h).pmp access x = true → t.mem (ofNat 64 x) = 0

theorem destroyUtm_mem (m : Machine) (eid : Nat) : (destroyUtm P m eid).mem = m.mem := by
  unfold destroyUtm
  split
  · rfl
  · rfl

theorem erased_mem (P : Platform) (m : Machine) (eid : Nat) :
    (m.erased P eid).mem = (m.wiped eid).mem := by
  rw [erased_eq]
  rfl

/- Before its end the wipe leaves the harts as they are; from there on the memory is the wiped one.
   -/
theorem DestroyAt.harts_or_mem (hAt : DestroyAt P m eid p t) :
    (t.harts = m.harts ∧ t.cpus = m.cpus) ∨ t.mem = (m.wiped eid).mem := by
  cases p with
  | check =>
    rw [show t = m from hAt]
    exact .inl ⟨rfl, rfl⟩
  | region i =>
    cases i with
    | zero =>
      rw [show t = m.marked eid from hAt]
      exact .inl ⟨rfl, rfl⟩
    | succ j =>
      rw [hAt.2]
      exact .inr (erased_mem P m eid)
  | wipe i k =>
    rw [hAt.2.2]
    exact .inl ⟨rfl, rfl⟩
  | unset i pending =>
    rw [hAt.2.rest]
    exact .inr rfl
  | release i =>
    rw [hAt.2]
    exact .inr rfl
  | shared =>
    rw [show t = m.erased P eid from hAt]
    exact .inr (erased_mem P m eid)
  | metadata =>
    rw [show t = destroyUtm P (m.erased P eid) eid from hAt, destroyUtm_mem]
    exact .inr (erased_mem P m eid)
  | slot =>
    rw [show t = destroyMetadata P (destroyUtm P (m.erased P eid) eid) eid from hAt]
    refine .inr (Eq.trans ?_ (erased_mem P m eid))
    exact destroyUtm_mem _ eid
  | returned =>
    rw [show t = m.destroyed P eid from hAt]
    exact .inr (erased_mem P m eid)

theorem wiped_zero (m : Machine) (eid : Nat) {x : Word}
    (hx : x - (region m (.epm eid)).addr < (region m (.epm eid)).size) :
    (m.wiped eid).mem x = 0 := by
  change memset m.mem _ 0 (ofNat 64 _) x = 0
  rw [ofNat_toNat, setWidth_eq]
  exact memset_mem hx

/- A host that is denied the private region before the call never reaches a byte that is not wiped.
   -/
theorem DestroyAt.wipedFromHost {base size : Word} (hAt : DestroyAt P m eid p t)
    (hBase : (region m (.epm eid)).addr = base)
    (hSize : (region m (.epm eid)).size = size)
    (hDenied : ∀ h access x, (m.cpus h).isEnclave = false → x < 2 ^ 56 →
      (region m (.epm eid)).Covers x → allows P.pmpNReg (m.harts h).pmp access x =
      false) : WipedFromHost P base size t := by
  intro h access x hHost hx hLow hHigh hAllowed
  rcases hAt.harts_or_mem with ⟨hHarts, hCpus⟩ | hMem
  · rw [hHarts] at hAllowed
    rw [hCpus] at hHost
    have hNot := hDenied h access x hHost hx (by rw [PmpRegion.Covers, hBase, hSize]; omega)
    cases hNot.symm.trans hAllowed
  · rw [hMem]
    apply wiped_zero
    rw [hBase, hSize, BitVec.lt_def, BitVec.toNat_sub, BitVec.toNat_ofNat]
    omega

/- Private memory is wiped before it is released, in every run from clean registers whose registers
   stay exclusive, for an enclave that ends below the reach of the registers. While
   `destroy_enclave` runs, a host finds zeros only in what it reaches of the range given at
   creation; the steps end with the machine of the atomic call, in which the whole range is zero. -/
theorem epm_wiped_before_release (boot : Nat → Hart) (mem : Memory) (as : List Arrival)
    (m₀ m m' : Machine) (hBoot : ∀ h, CleanBoot P (boot h).pmp)
    (hInit : smInit P boot mem = some m₀)
    (hExcl : Runs.Always (smStep P K keys) (ExclusiveRegisters P) m₀ as)
    (hRun : Runs.exec (smStep P K keys) m₀ as = some m) (a : Arrival) (eid : Nat)
    (hDestroy : destroyEnclave P (m.arrive a) eid = some (.success, m'))
    (hReach : (m.enclaves eid).params.dramBase.toNat +
      (m.enclaves eid).params.dramSize.toNat < 2 ^ 56) :
    FilledBy as (m.enclaves eid).params ∧ (∀ phase t, DestroyVisits P (m.arrive a) eid phase t →
      WipedFromHost P (m.enclaves eid).params.dramBase (m.enclaves eid).params.dramSize t) ∧
    (∀ t, DestroyVisits P (m.arrive a) eid .returned t ↔ t = m') ∧
    ∀ x, x - (m.enclaves eid).params.dramBase < (m.enclaves eid).params.dramSize →
    m'.mem x = 0 := by
  rcases viewInv_run hBoot hInit hExcl hRun with ⟨hViews, hAlone⟩
  have hInv := hViews.life.regions
  have hInvA := hInv.arrive a
  rw [destroyEnclave_eq hInvA] at hDestroy
  split at hDestroy
  · rename_i hOk
    cases hDestroy
    have hUsed : (m.enclaves eid).state ≠ .invalid := destroyable_used (m := m.arrive a) hOk
    have hOrigin := originated_run hInit hRun eid hUsed
    refine ⟨hOrigin.filled, ?_, ?_, ?_⟩
    · intro phase t hVisits
      refine (destroyAt_visited hInvA hOk hVisits).wipedFromHost hOrigin.epm.1 hOrigin.epm.2 ?_
      intro h access x hHost hx hCovers
      have hShows := hViews.views h
      rw [View.ofCpu, show (m.cpus h).isEnclave = false from hHost] at hShows
      have hWithin : WithinReach (region m (.epm eid)) := by
        left
        rw [hOrigin.epm.1, hOrigin.epm.2]
        exact hReach
      rw [arrive_bank]
      exact hShows.host_denied hInv hAlone hx hWithin hUsed rfl hCovers access
    · intro t
      exact destroyVisits_returned_iff hInvA hOk
    · intro x hx
      have hMem : ((m.arrive a).destroyed P eid).mem = ((m.arrive a).wiped eid).mem :=
        erased_mem P (m.arrive a) eid
      rw [hMem]
      apply wiped_zero
      change x - (region m (.epm eid)).addr < (region m (.epm eid)).size
      rw [hOrigin.epm.1, hOrigin.epm.2]
      exact hx
  · cases hDestroy

theorem destroyEnclave_success (hInv : RegionInv P m) (a : Arrival)
    (hOk : destroyable P m eid = true) :
    destroyEnclave P (m.arrive a) eid = some (.success, (m.arrive a).destroyed P eid) :=
  (destroyEnclave_eq (hInv.arrive a) eid).trans (if_pos hOk)

theorem epm_wiped_before_release_sample : ∃ m₀ m m',
    sampleInit = some m₀ ∧
    Runs.exec sampleStep
    m₀ [createTrap] =
    some m ∧
    destroyEnclave .generic (m.arrive (sampleTrap 0 (.ecall sbiSmDestroyEnclave) 0))
    0 = some (.success, m') ∧
    (∀ phase t, DestroyVisits .generic (m.arrive (sampleTrap 0 (.ecall sbiSmDestroyEnclave)
      0)) 0 phase t →
      WipedFromHost .generic (m.enclaves 0).params.dramBase
      (m.enclaves 0).params.dramSize t) := by
  have hFacts : (sampleRun [createTrap]).map
        (fun m => (destroyable .generic m 0, (m.enclaves 0).params)) =
        some (true, sampleArgs.params) := by
    decide +kernel
  rcases Option.map_eq_some_iff.mp hFacts with ⟨m, hRun, hEq⟩
  simp only [Prod.mk.injEq] at hEq
  rcases Option.bind_eq_some_iff.mp hRun with ⟨m₀, hInit, hExec⟩
  have hInv := regionInv_run hInit hExec
  have hExcl : Runs.Always sampleStep
      (ExclusiveRegisters .generic) m₀
      [createTrap] := by
    apply exclusive_without_destroy hInit
    intro a ha
    rw [List.mem_singleton.mp ha]
    decide
  have hDestroy := destroyEnclave_success hInv (sampleTrap 0 (.ecall sbiSmDestroyEnclave) 0) hEq.1
  have hReach : (m.enclaves 0).params.dramBase.toNat +
      (m.enclaves 0).params.dramSize.toNat < 2 ^ 56 := by
    rw [hEq.2]
    decide
  exact ⟨m₀, m, _, hInit, hExec, hDestroy, (epm_wiped_before_release sampleBoot (fun _ => 0) _
      m₀ m _ sampleBoot_clean hInit hExcl hExec _ 0 hDestroy
      hReach).2.1⟩

/- An enclave whose memory ends where the registers end. -/
def topCreate : Arrival := sampleCreate 0xffffffffffd000 0x3000 0xa0000000

/- The host has left nothing zero. -/
def dirtyDestroy : Arrival := { sampleTrap 0 (.ecall sbiSmDestroyEnclave) 0 with mem := fun _ => 1 }

theorem topCreate_facts (hRun : sampleRun [topCreate] = some m) : destroyable .generic m 0 = true ∧
    (m.cpus 0).isEnclave = false ∧ (m.enclaves 0).params.dramBase = 0xffffffffffd000 ∧
    (m.enclaves 0).params.dramSize = 0x3000 ∧
    region m (.epm 0) = ⟨0x3000, pmpATor, 0xffffffffffd000, false, 2⟩ ∧ ∀ e < 16, e ≠ 0 →
    (m.enclaves e).state = .invalid := by
  have hSlot : (sampleRun [topCreate]).map (fun m =>
            (destroyable .generic m 0, (m.cpus 0).isEnclave, (m.enclaves 0).params.dramBase,
              (m.enclaves 0).params.dramSize)) =
        some (true, false, 0xffffffffffd000, 0x3000) := by
    decide +kernel
  have hEpm : (sampleRun [topCreate]).map (fun m => region m (.epm 0)) =
        some ⟨0x3000, pmpATor, 0xffffffffffd000, false, 2⟩ := by
    decide +kernel
  have hOthers : (sampleRun [topCreate]).map (fun m => (List.range 16).all fun e =>
            e == 0 || decide ((m.enclaves e).state = .invalid)) =
        some true := by
    decide +kernel
  rw [hRun] at hSlot hEpm hOthers
  simp only [Option.map_some, Option.some.injEq, Prod.mk.injEq] at hSlot hEpm hOthers
  refine ⟨hSlot.1, hSlot.2.1, hSlot.2.2.1, hSlot.2.2.2, hEpm, ?_⟩
  intro e he hNe
  have hAll := List.all_eq_true.mp hOthers e (List.mem_range.mpr he)
  simpa [hNe] using hAll

theorem topCreate_allowed {c : PmpBank} (hInv : RegionInv .generic m)
    (hShows : Shows .generic m View.host c)
    (hEpm : region m (.epm 0) = ⟨0x3000, pmpATor, 0xffffffffffd000, false, 2⟩)
    (hSlots : ∀ e < 16, e ≠ 0 → (m.enclaves e).state = .invalid) (access : Access) :
    allows 8 c access 0xffffffffffd000 = true := by
  have hOs : matchesEntry c (region m .os).regIdx 0xffffffffffd000 = true :=
    hShows.owner_match hInv (by decide) (.inr (hInv.desc .os trivial).2.1) trivial rfl
      (hInv.os_covers (by decide))
  have hReg : (region m .os).regIdx < 8 := hInv.regIdx_lt trivial
  rcases exists_firstMatch hReg hOs with ⟨n, hFirst, hn, hMatch, _⟩
  rcases hShows.entry_owner hInv hn (not_silent_of_match hMatch) with
    ⟨o, perm, hLive, hView, hIdx, hBit⟩
  rw [allows_of_firstMatch hFirst, hBit]
  cases o with
  | sm =>
    have hNot := sm_entry_elsewhere hInv (hShows.programmed .sm pmpNoPerm trivial rfl)
      (a := 0xffffffffffd000) (by decide) (by decide)
    rw [hIdx, (hInv.desc .sm trivial).2.2.2.2] at hMatch
    cases hNot.symm.trans hMatch
  | os =>
    cases hView
    decide
  | epm e =>
    have hZero : e = 0 := by
      by_contra hNe
      exact hLive (hSlots e (hInv.slot_lt e hLive) hNe)
    subst hZero
    have hEntry := hShows.programmed (.epm 0) pmpNoPerm hLive rfl 2 (by rw [hEpm]; decide)
    rw [hEpm] at hEntry hIdx
    -- the end of the range is cut to zero
    have hCut : c 2 = ⟨0#54, pmpATor⟩ := hEntry.trans (by decide)
    have hMode : AddrMatch.ofCfg pmpATor = .tor := by
      decide
    rw [hIdx, matchesEntry, hCut] at hMatch
    simp [hMode] at hMatch
  | utm e => cases hView

/- The end of the range does not fit into `pmpaddr`, so the entry matches nothing and the host
   reaches the memory before it is wiped, although the registers are clean at boot and exclusive all
   along. -/
theorem wipedFromHost_fails_at_top : ∃ m₀ m m' t,
    sampleInit = some m₀ ∧
    (∀ h, CleanBoot .generic (sampleBoot h).pmp) ∧
    Runs.Always sampleStep
    (ExclusiveRegisters .generic) m₀ [topCreate] ∧
    Runs.exec sampleStep m₀ [topCreate] = some m ∧
    destroyEnclave .generic (m.arrive dirtyDestroy) 0 = some (.success, m') ∧
    DestroyVisits .generic (m.arrive dirtyDestroy) 0 (.wipe 0 0) t ∧
    ¬ WipedFromHost .generic (m.enclaves 0).params.dramBase
    (m.enclaves 0).params.dramSize t := by
  have hSome : (sampleRun [topCreate]).isSome = true := by
    decide +kernel
  rcases Option.isSome_iff_exists.mp hSome with ⟨m, hRun⟩
  rcases Option.bind_eq_some_iff.mp hRun with ⟨m₀, hInit, hExec⟩
  rcases topCreate_facts hRun with ⟨hOk, hHost, hBase, hSize, hEpm, hSlots⟩
  have hExcl : Runs.Always sampleStep
      (ExclusiveRegisters .generic) m₀ [topCreate] := by
    apply exclusive_without_destroy hInit
    intro a ha
    rw [List.mem_singleton.mp ha]
    decide
  rcases viewInv_run sampleBoot_clean hInit hExcl hExec with ⟨hViews, _⟩
  have hInv := hViews.life.regions
  have hInvA := hInv.arrive dirtyDestroy
  refine ⟨m₀, m, _, _, hInit, sampleBoot_clean, hExcl, hExec,
    destroyEnclave_success hInv dirtyDestroy hOk,
    destroy_reaches_wipe hInvA hOk 0 (Nat.zero_le _), ?_⟩
  intro hWiped
  have hShows := hViews.views 0
  rw [View.ofCpu, hHost] at hShows
  have hAllowed := topCreate_allowed hInv hShows hEpm hSlots .read
  have hZero := hWiped 0 .read 0xffffffffffd000 hHost (by decide) (by rw [hBase]; decide)
    (by rw [hBase, hSize]; decide)
    (by rw [wipedTo_harts, arrive_bank]; exact hAllowed)
  rw [wipedTo_zero] at hZero
  change (1 : Byte) = 0 at hZero
  cases hZero

end Keystone
