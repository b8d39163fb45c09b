import Keystone.Sm.Lifecycle

/-
  Which PMP registers the regions of the table own.

  A register belongs to one region, except the last one, which the operating system's region shares
  with the shared regions of all enclaves. The bitmap of claimed registers does not count its users:
  releasing one shared region gives up the last register for all of them. So the bitmap is right
  exactly as long as no enclave is destroyed.
-/

----
-- Ownership
----

namespace Keystone

open Bits
open Owner (rid)

variable {o : Owner} {a : Arrival} {mem : Memory}

variable (P : Platform) (m : Machine)

/- The region was created with `PMP_PRI_BOTTOM`: it is the operating system's or the UTM of an
   existing enclave. -/
def IsBottomRegion (i : Nat) : Prop :=
  i = m.osRegionId ∨ ∃ eid, (m.enclaves eid).state ≠ .invalid ∧
      i = ((m.enclaves eid).regions 1).pmpRid

/- No register but the last is used by two valid regions, and the last one only by bottom regions.
   -/
structure ExclusiveRegisters : Prop where
  exclusive : ∀ r i j, r ≠ P.pmpNReg - 1 → isPmpRegionValid m.pmp i = true →
        isPmpRegionValid m.pmp j = true → usesReg (m.pmp.regions i) r = true →
            usesReg (m.pmp.regions j) r = true → i = j
  bottom : ∀ i, isPmpRegionValid m.pmp i = true → usesReg (m.pmp.regions i) (P.pmpNReg - 1) = true →
        IsBottomRegion m i

/- The bitmap shows exactly the registers in use. -/
structure RegisterOwnership : Prop where
  claimed : ∀ r < P.pmpNReg, (testBit m.pmp.regBitmap r = true ↔
        ∃ i, isPmpRegionValid m.pmp i = true ∧ usesReg (m.pmp.regions i) r = true)
  exclusive : ExclusiveRegisters P m

/- The registers of a private region have no other owner. -/
def EpmAlone : Prop :=
  ∀ (eid : Nat) (o : Owner) (r : Nat), Owner.Live m (.epm eid) → o.Live m → o ≠ .epm eid →
      usesReg (Owner.region m (.epm eid)) r = true → usesReg (o.region m) r = false

variable {P : Platform} {m : Machine}

section

variable (hInv : RegionInv P m)
include hInv

theorem RegionInv.uses_sm (r : Nat) : usesReg (Owner.region m .sm) r = true ↔ r = 0 := by
  have hDesc := hInv.desc .sm trivial
  rw [usesReg_of_napot hDesc.2.2.1, hDesc.2.2.2.2]

theorem RegionInv.uses_os (r : Nat) : usesReg (Owner.region m .os) r = true ↔
    r = P.pmpNReg - 1 := by
  have hDesc := hInv.desc .os trivial
  rw [usesReg_of_napot hDesc.2.2.1, hDesc.2.2.2.2]

theorem RegionInv.uses_utm {eid : Nat} (hLive : Owner.Live m (.utm eid)) (r : Nat) :
    usesReg (Owner.region m (.utm eid)) r = true ↔ r = P.pmpNReg - 1 := by
  have hDesc := hInv.desc (.utm eid) hLive
  rw [usesReg_of_napot hDesc.2.1, hDesc.2.2]

/- Exclusive registers, said of the owners. -/
theorem exclusiveRegisters_iff : ExclusiveRegisters P m ↔ EpmAlone m := by
  have hTwo := P.two_le_pmpNReg
  constructor
  · intro hExcl eid o r hEpm hLive hNe hUses
    cases hOther : usesReg (o.region m) r with
    | false => rfl
    | true =>
      exfalso
      by_cases hLast : r = P.pmpNReg - 1
      · -- the last register is not for private regions
        rw [hLast] at hUses
        rcases hExcl.bottom _ (hInv.valid _ hEpm) hUses with hOs | ⟨e, hUsed, hUtm⟩
        · cases hInv.inj (.epm eid) .os hEpm trivial hOs
        · cases hInv.inj (.epm eid) (.utm e) hEpm hUsed hUtm
      · have hRid := hExcl.exclusive r _ _ hLast (hInv.valid o hLive) (hInv.valid _ hEpm)
          hOther hUses
        exact hNe (hInv.inj o (.epm eid) hLive hEpm hRid)
  · intro hAlone
    refine ⟨?_, ?_⟩
    · intro r i j hLast hi hj hUses hUses'
      rcases hInv.owner i hi with ⟨o, hLive, hRid⟩
      rcases hInv.owner j hj with ⟨o', hLive', hRid'⟩
      rw [← hRid] at hUses
      rw [← hRid'] at hUses'
      rw [← hRid, ← hRid']
      by_cases hEq : o = o'
      · rw [hEq]
      exfalso
      -- two owners of one register: one of them is private
      cases o with
      | epm e =>
        have hNot := hAlone e o' r hLive hLive' (Ne.symm hEq) hUses
        cases hNot.symm.trans hUses'
      | os => exact hLast ((hInv.uses_os r).mp hUses)
      | utm e => exact hLast ((hInv.uses_utm hLive r).mp hUses)
      | sm =>
        cases o' with
        | sm => exact hEq rfl
        | os => exact hLast ((hInv.uses_os r).mp hUses')
        | utm e => exact hLast ((hInv.uses_utm hLive' r).mp hUses')
        | epm e =>
          have hNot := hAlone e .sm r hLive' trivial (by simp) hUses'
          cases hNot.symm.trans hUses
    · intro i hi hUses
      rcases hInv.owner i hi with ⟨o, hLive, hRid⟩
      rw [← hRid] at hUses ⊢
      cases o with
      | sm =>
        have hZero := (hInv.uses_sm _).mp hUses
        omega
      | os => exact .inl rfl
      | utm e => exact .inr ⟨e, hLive, rfl⟩
      | epm e =>
        have hNot := hAlone e .os _ hLive trivial (by simp) hUses
        have hOs := (hInv.uses_os (P.pmpNReg - 1)).mpr rfl
        cases hNot.symm.trans hOs

theorem claimed_iff_owner (r : Nat) :
    (∃ i, isPmpRegionValid m.pmp i = true ∧ usesReg (m.pmp.regions i) r = true) ↔ ∃ o : Owner,
    o.Live m ∧ usesReg (o.region m) r = true := by
  constructor
  · rintro ⟨i, hi, hUses⟩
    rcases hInv.owner i hi with ⟨o, hLive, hRid⟩
    rw [← hRid] at hUses
    exact ⟨o, hLive, hUses⟩
  · rintro ⟨o, hLive, hUses⟩
    exact ⟨o.rid m, hInv.valid o hLive, hUses⟩

end

----
-- Creation
----

variable {K : Crypto} {h eid region shared : Nat} {args : CreateArgs} {t t' : PmpTable}

theorem created_region_epm (hAcc : CreateAccepted P m args eid region shared t t') :
    Owner.region (m.created P K h eid args region shared t') (.epm eid) = t.regions region := by
  rw [Owner.region, created_rid_epm]
  exact hAcc.epm_region

theorem created_region_utm : Owner.region (m.created P K h eid args region shared t') (.utm eid) =
    t'.regions shared := by
  rw [Owner.region, created_rid_utm]
  rfl

section

variable (hInv : RegionInv P m)
include hInv

theorem created_region_old (hAcc : CreateAccepted P m args eid region shared t t')
    (hApart : o.Apart eid) (hLive : Owner.Live (m.created P K h eid args region shared t') o) :
    Owner.region (m.created P K h eid args region shared t') o = Owner.region m o := by
  have hOld := created_old hInv hAcc hApart hLive
  rw [Owner.region, hOld.2.1]
  exact hOld.2.2.2.2.2

section

variable (hOwn : RegisterOwnership P m) (hAcc : CreateAccepted P m args eid region shared t t')
include hOwn hAcc

theorem CreateAccepted.unused_regs {r : Nat}
    (hUses : usesReg (t.regions region) r = true) (hLive : o.Live m) :
    usesReg (o.region m) r = false := by
  have hFree := hAcc.epm.free_regs hUses
  have hLt : r < P.pmpNReg := by
    have hIdx := hAcc.epm.regIdx_lt
    have hLe := usesReg_le hUses
    omega
  cases hOther : usesReg (o.region m) r with
  | false => rfl
  | true =>
    have hBit := (hOwn.claimed r hLt).mpr ((claimed_iff_owner hInv r).mpr ⟨o, hLive, hOther⟩)
    cases hFree.symm.trans hBit

theorem epmAlone_created :
    EpmAlone (m.created P K h eid args region shared t') := by
  have hAlone := (exclusiveRegisters_iff hInv).mp hOwn.exclusive
  have hShared : ∀ r, usesReg (t'.regions shared) r = true →
      usesReg (Owner.region m .os) r = true := by
    intro r hUses
    have hEq := (usesReg_of_napot hAcc.utm.bottom.2 r).mp hUses
    rw [hAcc.utm.bottom.1] at hEq
    exact (hInv.uses_os r).mpr hEq
  have hNew : ∀ (o : Owner) (r : Nat), Owner.Live (m.created P K h eid args region shared t') o →
      o ≠ .epm eid → usesReg (t.regions region) r = true → usesReg (Owner.region
      (m.created P K h eid args region shared t')
      o) r = false := by
    intro o r hLive hNe hUses
    have hFree := fun {o : Owner} (ho : o.Live m) => hAcc.unused_regs hInv hOwn hUses ho
    rcases o.cases_apart eid with hEq | hEq | hApart
    · exact absurd hEq hNe
    · rw [hEq, created_region_utm]
      cases hUtm : usesReg (t'.regions shared) r with
      | false => rfl
      | true =>
        have hNot := hFree (o := .os) trivial
        cases hNot.symm.trans (hShared r hUtm)
    · rw [created_region_old hInv hAcc hApart hLive]
      exact hFree (created_old hInv hAcc hApart hLive).1
  intro e o r hEpm hLive hNe hUses
  by_cases hEq : e = eid
  · subst hEq
    rw [created_region_epm hAcc] at hUses
    exact hNew o r hLive hNe hUses
  · have hApart : (Owner.epm e).Apart eid := by
      constructor
      · simpa using hEq
      · simp
    have hOldEpm := created_old hInv hAcc hApart hEpm
    rw [created_region_old hInv hAcc hApart hEpm] at hUses
    rcases o.cases_apart eid with hNewEpm | hNewUtm | hOld
    · subst hNewEpm
      rw [created_region_epm hAcc]
      cases hOther : usesReg (t.regions region) r with
      | false => rfl
      | true =>
        have hNot := hAcc.unused_regs hInv hOwn hOther hOldEpm.1
        cases hNot.symm.trans hUses
    · subst hNewUtm
      rw [created_region_utm]
      cases hOther : usesReg (t'.regions shared) r with
      | false => rfl
      | true =>
        have hNot := hAlone e .os r hOldEpm.1 trivial (by simp) hUses
        cases hNot.symm.trans (hShared r hOther)
    · rw [created_region_old hInv hAcc hOld hLive]
      exact hAlone e o r hOldEpm.1 (created_old hInv hAcc hOld hLive).1 hNe hUses

theorem registerOwnership_created :
    RegisterOwnership P (m.created P K h eid args region shared t') := by
  have hInv' := regionInv_created (K := K) (h := h) hInv hAcc
  refine ⟨?_, (exclusiveRegisters_iff hInv').mpr (epmAlone_created hInv hOwn hAcc)⟩
  intro r hr
  have hWord : r < 32 := lt_of_lt_of_le hr (le_trans P.pmpNReg_le (by decide))
  have hBits : testBit t'.regBitmap r = (testBit m.pmp.regBitmap r ||
      usesReg (t.regions region) r ||
      usesReg (t'.regions shared) r) := by
    rw [hAcc.utm.regBitmap hWord, hAcc.epm.regBitmap hWord]
  rw [claimed_iff_owner hInv']
  have hOld := (hOwn.claimed r hr).trans (claimed_iff_owner hInv r)
  change testBit t'.regBitmap r = true ↔ _
  rw [hBits, Bool.or_eq_true, Bool.or_eq_true, hOld]
  constructor
  · rintro ((⟨o, hLive, hUses⟩ | hUses) | hUses)
    · have hApart := Owner.apart_of_live hLive hAcc.slot_free
      have hLive' : Owner.Live (m.created P K h eid args region shared t') o :=
        (created_owner hApart).2.mpr hLive
      refine ⟨o, hLive', ?_⟩
      rw [created_region_old hInv hAcc hApart hLive']
      exact hUses
    · refine ⟨.epm eid, ?_, ?_⟩
      · simp [Owner.Live, created_slot_self, createdSlot]
      · rw [created_region_epm hAcc]
        exact hUses
    · refine ⟨.utm eid, ?_, ?_⟩
      · simp [Owner.Live, created_slot_self, createdSlot]
      · rw [created_region_utm]
        exact hUses
  · rintro ⟨o, hLive, hUses⟩
    rcases o.cases_apart eid with hEq | hEq | hApart
    · subst hEq
      rw [created_region_epm hAcc] at hUses
      exact .inl (.inr hUses)
    · subst hEq
      rw [created_region_utm] at hUses
      exact .inr hUses
    · rw [created_region_old hInv hAcc hApart hLive] at hUses
      exact .inl (.inl ⟨o, (created_old hInv hAcc hApart hLive).1, hUses⟩)

end

end

----
-- Steps
----

variable {keys : Keys} {m' : Machine}

theorem RegisterOwnership.frame (hOwn : RegisterOwnership P m) (hPmp : m'.pmp = m.pmp)
    (hOs : m'.osRegionId = m.osRegionId)
    (hSlots : ∀ eid, SlotKept (m.enclaves eid) (m'.enclaves eid)) :
    RegisterOwnership P m' := by
  refine ⟨?_, ?_, ?_⟩
  · rw [hPmp]
    exact hOwn.claimed
  · rw [hPmp]
    exact hOwn.exclusive.exclusive
  · rw [hPmp]
    intro i hi hUses
    rcases hOwn.exclusive.bottom i hi hUses with hEq | ⟨eid, hState, hEq⟩
    · exact .inl (hEq.trans hOs.symm)
    · refine .inr ⟨eid, mt (hSlots eid).used.mp hState, ?_⟩
      rw [(hSlots eid).regions]
      exact hEq

/- The request is a destroy that the monitor carries out. -/
structure DestroyAccepted (P : Platform) (m : Machine) (a : Arrival) : Prop where
  call : a.trap = .ecall sbiSmDestroyEnclave
  host : (m.cpus a.hart).isEnclave = false
  ok : destroyable P m (toEid (a.regs.x regA0)) = true

/- Every trap but an accepted destroy keeps ownership. -/
theorem registerOwnership_effect {out : Outcome} (hInv : RegionInv P m)
    (hOwn : RegisterOwnership P m) (hKept : ¬ DestroyAccepted P m a)
    (hEffect : Effect P K m a out m') : RegisterOwnership P m' := by
  have hArrive : RegisterOwnership P (m.arrive a) :=
    hOwn.frame rfl rfl fun _ => SlotKept.refl _
  cases hEffect with
  | quiet mem _ _ => exact hArrive.frame rfl rfl fun _ => SlotKept.refl _
  | created args eid region shared t t' _ _ _ hAcc =>
    exact registerOwnership_created (hInv.arrive a) hArrive hAcc
  | destroyed eid hHost hTrap hEid hOk =>
    rw [hEid] at hOk
    exact absurd ⟨hTrap, hHost, hOk⟩ hKept
  | entered eid load c _ _ _ hOk _ => exact hArrive.frame rfl rfl (entered_kept hOk.used)
  | left kind regs c _ _ hOk _ => exact hArrive.frame rfl rfl (left_kept (used_of_running hOk))

/- A destroy gives up the last register, which the operating system's region still uses. -/
theorem registerOwnership_lost (hInv : RegionInv P m) (hUsed : (m.enclaves eid).state ≠ .invalid) :
    ¬ RegisterOwnership P (m.destroyed P eid) := by
  intro hOwn
  have hTwo := P.two_le_pmpNReg
  have hInv' := regionInv_destroyed hInv hUsed
  have hBit := (hOwn.claimed (P.pmpNReg - 1) (by omega)).mpr ((claimed_iff_owner hInv' _).mpr
      ⟨.os, trivial, (hInv'.uses_os _).mpr rfl⟩)
  have hNe : rid m (.utm eid) ≠ rid m (.epm eid) := by
    intro hEq
    cases hInv.inj (.utm eid) (.epm eid) hUsed hUsed hEq
  have hUtm : usesReg (m.pmp.regions (rid m (.utm eid))) (P.pmpNReg - 1) = true :=
    (hInv.uses_utm hUsed _).mpr rfl
  have hClear : testBit (m.destroyed P eid).pmp.regBitmap (P.pmpNReg - 1) = false := by
    simp only [Machine.destroyed]
    rw [regBitmap_release, regions_release_ne _ hNe, hUtm]
    simp
  cases hClear.symm.trans hBit

theorem smStep_destroy (hInv : RegionInv P m) (hAccepted : DestroyAccepted P m a) :
    smStep P K keys m a = some ((m.arrive a).destroyed P (toEid (a.regs.x regA0))) := by
  have hOpen : ¬ sbiSmDestroyEnclave ≤ fidRangeDeprecated := by
    decide
  have hAllowed : sbiProhibited (m.arrive a) a.hart sbiSmDestroyEnclave = false := by
    have hRange : sbiSmDestroyEnclave ≤ fidRangeHost := by
      decide
    unfold sbiProhibited
    rw [if_pos hRange]
    exact hAccepted.host
  have hOk : destroyable P (m.arrive a) (toEid (a.regs.x regA0)) = true := hAccepted.ok
  unfold smStep takeTrap
  simp only [hAccepted.call, sbiEcallHandler, hOpen, if_false, hAllowed, Bool.false_eq_true]
  simp [sbiDispatch, sbiSmCreateEnclave, sbiSmDestroyEnclave, sbiSmDestroy,
    destroyEnclave_eq (hInv.arrive a), hOk]

----
-- Runs
----

theorem registerOwnership_smInit {boot : Nat → Hart} (hInit : smInit P boot mem = some m) :
    RegisterOwnership P m := by
  have hInv := regionInv_smInit hInit
  rcases smInit_cases hInit with ⟨t, hSmDef, hOsDef, hSlots, _, _⟩
  rcases hOsDef.addsEntry with ⟨_, _, _, hOsAdds⟩
  have hNone : ∀ eid, (m.enclaves eid).state = .invalid := by
    intro eid
    rw [hSlots]
    rfl
  have hAlone : EpmAlone m := by
    intro eid o r hEpm
    exact absurd (hNone eid) hEpm
  refine ⟨?_, (exclusiveRegisters_iff hInv).mpr hAlone⟩
  intro r hr
  have hWord : r < 32 := lt_of_lt_of_le hr (le_trans P.pmpNReg_le (by decide))
  have hNe : m.smRegionId ≠ m.osRegionId := by
    intro hEq
    cases hInv.inj .sm .os trivial trivial hEq
  have hKeep : t.regions m.smRegionId = Owner.region m .sm := (hOsAdds.regions_ne hNe).symm
  have hEmpty : testBit PmpTable.empty.regBitmap r = false := testBit_zero r
  rw [claimed_iff_owner hInv, hOsDef.regBitmap hWord,
    hSmDef.regBitmap hWord, hEmpty, hKeep, Bool.or_eq_true,
    Bool.false_or]
  constructor
  · rintro (hUses | hUses)
    · exact ⟨.sm, trivial, hUses⟩
    · exact ⟨.os, trivial, hUses⟩
  · rintro ⟨o, hLive, hUses⟩
    cases o with
    | sm => exact .inl hUses
    | os => exact .inr hUses
    | epm eid | utm eid => exact absurd (hNone eid) hLive

theorem registerOwnership_always {boot : Nat → Hart} {as : List Arrival} {m₀ : Machine}
    (hInit : smInit P boot mem = some m₀)
    (hGuarded : Runs.Guarded (smStep P K keys) (fun m a => ¬ DestroyAccepted P m a) m₀ as) :
    Runs.Always (smStep P K keys) (RegisterOwnership P) m₀ as := by
  have hBoth : Runs.Always (smStep P K keys) (fun m => RegionInv P m ∧ RegisterOwnership P m)
      m₀ as := by
    refine Runs.always_of_invariant ?_ ⟨regionInv_smInit hInit,
        registerOwnership_smInit hInit⟩ hGuarded
    intro t a t' hs hKept hStep
    rcases smStep_effect hs.1 hStep with ⟨out, _, hEffect⟩
    exact ⟨regionInv_effect hs.1 hEffect, registerOwnership_effect hs.1 hs.2 hKept hEffect⟩
  intro pre post t hSplit hPre
  exact (hBoth pre post t hSplit hPre).2

/- The bitmap shows the registers in use, and only the bottom regions share one, in every state of a
   run exactly if no enclave is destroyed in it. -/
theorem registerOwnership_iff (boot : Nat → Hart) (mem : Memory) (as : List Arrival) (m₀ : Machine)
    (hInit : smInit P boot mem = some m₀) :
    Runs.Always (smStep P K keys) (RegisterOwnership P) m₀ as ↔ Runs.Guarded (smStep P K keys)
    (fun m a => ¬ DestroyAccepted P m a) m₀ as := by
  constructor
  · intro hAlways pre a post t hSplit hPre hAccepted
    have hInv := regionInv_run hInit hPre
    have hStep : smStep P K keys t a = some ((t.arrive a).destroyed P (toEid (a.regs.x regA0))) :=
      smStep_destroy hInv hAccepted
    have hOwn := hAlways (pre ++ [a]) post _ (by rw [hSplit]; simp)
      ((Runs.exec_append_iff _).mpr ⟨t, hPre, (Runs.exec_singleton_iff _).mpr hStep⟩)
    exact registerOwnership_lost (hInv.arrive a)
      (destroyable_used (m := t.arrive a) hAccepted.ok) hOwn
  · intro hGuarded
    exact registerOwnership_always hInit hGuarded

/- A create with a shared page. -/
def sampleCreate (epm size utm : Word) : Arrival :=
  { createTrap with
    env :=
      { sampleEnv with
        createArgs := some
          { epmRegion := ⟨epm, size⟩
            utmRegion := ⟨utm, 0x1000⟩
            runtimePaddr := epm + 0x1000
            userPaddr := epm + 0x2000
            freePaddr := epm + 0x3000
            freeRequested := 0 } } }

/- Six enclaves take the registers 1 to 6. Destroying the last of them gives up 6 and 7, and a
   private region of three pages then takes both. -/
def sampleReuse : List Arrival :=
  [sampleCreate 0x90000000 0x100000 0xa0000000, sampleCreate 0x90100000 0x100000 0xa0001000,
    sampleCreate 0x90200000 0x100000 0xa0002000,
    sampleCreate 0x90300000 0x100000 0xa0003000,
    sampleCreate 0x90400000 0x100000 0xa0004000,
    sampleCreate 0x90500000 0x100000 0xa0005000,
    sampleTrap 0 (.ecall sbiSmDestroyEnclave) 5,
    sampleCreate 0x98000000 0x3000 0xa0006000]

theorem registerOwnership_fails_on_reuse : ∃ m₀ m,
    sampleInit = some m₀ ∧
    Runs.exec sampleStep m₀ sampleReuse = some m ∧
    usesReg (Owner.region m (.epm 5)) 7 = true ∧
    usesReg (Owner.region m .os) 7 = true ∧
    ¬ RegisterOwnership .generic m := by
  have hFacts : (sampleRun sampleReuse).map (fun m =>
            ((m.enclaves 5).state, usesReg (Owner.region m (.epm 5)) 7,
              usesReg (Owner.region m .os) 7)) =
        some (.fresh, true, true) := by
    decide +kernel
  rcases Option.map_eq_some_iff.mp hFacts with ⟨m, hRun, hEq⟩
  simp only [Prod.mk.injEq] at hEq
  rcases hEq with ⟨hState, hEpm, hOs⟩
  rcases Option.bind_eq_some_iff.mp hRun with ⟨m₀, hInit, hExec⟩
  refine ⟨m₀, m, hInit, hExec, hEpm, hOs, ?_⟩
  intro hOwn
  have hInv := regionInv_run hInit hExec
  have hLive : Owner.Live m (.epm 5) := by
    simp [Owner.Live, hState]
  have hAlone :=
    (exclusiveRegisters_iff hInv).mp hOwn.exclusive 5 .os 7 hLive trivial (by simp) hEpm
  cases hAlone.symm.trans hOs

theorem registerOwnership_iff_sampleSession : ∃ m₀,
    sampleInit = some m₀ ∧ (Runs.Always
      sampleStep
      (RegisterOwnership .generic) m₀ sampleSession ↔
      Runs.Guarded sampleStep
      (fun m a => ¬ DestroyAccepted .generic m a)
      m₀ sampleSession) := by
  rcases exists_sampleInit with ⟨m₀, hInit⟩
  exact ⟨m₀, hInit, registerOwnership_iff sampleBoot (fun _ => 0) sampleSession m₀ hInit⟩

end Keystone
