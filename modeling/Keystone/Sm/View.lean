import Keystone.Sm.Ownership

/-
  What the registers of a hart say about the owners.

  A view names, for some of the owners, the permission with which their region stands in the
  registers; every register that no named owner uses matches nothing. Writing a region names its
  owner, and setting the last register takes it from the bottom regions that had it before.
-/

----
-- Views
----

namespace Keystone

open Riscv

variable {o o' : Owner} {n eid : Nat} {perm : Byte}

/- The permission under which each owner is programmed. -/
abbrev View := Owner → Option Byte

/- The owner's region has bottom priority. -/
def Owner.isBottom : Owner → Bool
| .sm => false
| .os => true
| .epm _ => false
| .utm _ => true

/- Program an owner; bottom regions displace each other. -/
def View.set (v : View) (o : Owner) (perm : Byte) : View :=
  fun o' =>
    if o' = o then some perm
    else if o.isBottom && o'.isBottom then none
    else v o'

def View.drop (v : View) (o : Owner) : View := fun o' => if o' = o then none else v o'

/- Nothing is programmed. -/
def View.empty : View := fun _ => none

/- What the host may see. -/
def View.host : View
| .sm => some pmpNoPerm
| .os => some pmpAllPerm
| .epm _ => some pmpNoPerm
| .utm _ => none

/- What enclave `eid` may see. -/
def View.enclave (eid : Nat) : View
| .sm => some pmpNoPerm
| .os => none
| .epm e => some (if e = eid then pmpAllPerm else pmpNoPerm)
| .utm e => if e = eid then some pmpAllPerm else none

/- What the context of a hart may see. -/
def View.ofCpu (cpu : CpuState) : View :=
  if cpu.isEnclave then View.enclave cpu.eid
  else View.host

/- The registers of a bank show the view. -/
structure Shows (P : Platform) (m : Machine) (v : View) (c : PmpBank) : Prop where
  unlocked : Unlocked P c
  perm : ∀ o perm, o.Live m → v o = some perm → MonitorPerm perm
  programmed : ∀ o perm, o.Live m → v o = some perm → Programmed (o.region m) perm c
  silent : ∀ n < P.pmpNReg, (∀ o perm, o.Live m → v o = some perm →
        usesReg (o.region m) n = false) → (c n).Silent

variable {P : Platform} {m m' : Machine} {v v' : View} {c : PmpBank}

/- Owners use different registers, unless both are bottom ones. -/
theorem regs_apart (hInv : RegionInv P m) (hAlone : EpmAlone m) (hLive : o.Live m)
    (hLive' : o'.Live m) (hNe : o' ≠ o) (hBottom : (o.isBottom && o'.isBottom) = false)
    (hUses : usesReg (o.region m) n = true) : usesReg (o'.region m) n = false := by
  have hTwo := P.two_le_pmpNReg
  cases hOther : usesReg (o'.region m) n with
  | false => rfl
  | true =>
    exfalso
    -- a private region is alone in its registers
    have hEpm : ∀ {e : Nat} {o' : Owner}, Owner.Live m (.epm e) → o'.Live m → o' ≠ .epm e →
        usesReg (Owner.region m (.epm e)) n = true →
        usesReg (o'.region m) n = true → False := by
      intro e o' hE hO hNe' hU hU'
      have hNot := hAlone e o' n hE hO hNe' hU
      cases hNot.symm.trans hU'
    have hLast : ∀ {o : Owner}, o.isBottom = true → o.Live m → usesReg (o.region m) n = true →
        n = P.pmpNReg - 1 := by
      intro o hB hL hU
      cases o with
      | sm | epm e => cases hB
      | os => exact (hInv.uses_os n).mp hU
      | utm e => exact (hInv.uses_utm hL n).mp hU
    cases o with
    | epm e => exact hEpm hLive hLive' hNe hUses hOther
    | sm =>
      have hZero := (hInv.uses_sm n).mp hUses
      cases o' with
      | sm => exact hNe rfl
      | epm e => exact hEpm hLive' hLive (Ne.symm hNe) hOther hUses
      | os =>
        have hEq := hLast (o := .os) rfl trivial hOther
        omega
      | utm e =>
        have hEq := hLast (o := .utm e) rfl hLive' hOther
        omega
    | os =>
      have hEq := hLast (o := .os) rfl trivial hUses
      cases o' with
      | sm =>
        have hZero := (hInv.uses_sm n).mp hOther
        omega
      | epm e => exact hEpm hLive' hLive (Ne.symm hNe) hOther hUses
      | os => exact hNe rfl
      | utm e => cases hBottom
    | utm e =>
      have hEq := hLast (o := .utm e) rfl hLive hUses
      cases o' with
      | sm =>
        have hZero := (hInv.uses_sm n).mp hOther
        omega
      | epm e' => exact hEpm hLive' hLive (Ne.symm hNe) hOther hUses
      | os | utm e' => cases hBottom

theorem bottom_uses_iff (hInv : RegionInv P m) (hLive : o.Live m) (hLive' : o'.Live m)
    (hBottom : (o.isBottom && o'.isBottom) = true) (n : Nat) :
    usesReg (o.region m) n = true ↔ usesReg (o'.region m) n = true := by
  have hLast : ∀ {o : Owner}, o.isBottom = true → o.Live m → (usesReg (o.region m) n = true ↔
      n = P.pmpNReg - 1) := by
    intro o hB hL
    cases o with
    | sm | epm e => cases hB
    | os => exact hInv.uses_os n
    | utm e => exact hInv.uses_utm hL n
  rw [Bool.and_eq_true] at hBottom
  rw [hLast hBottom.1 hLive, hLast hBottom.2 hLive']

----
-- Writing A View
----

theorem Shows.congr (hShows : Shows P m v c) (hEq : ∀ o : Owner, o.Live m → v' o = v o) :
    Shows P m v' c := by
  refine ⟨hShows.unlocked, ?_, ?_, ?_⟩
  · intro o perm hLive hPerm
    rw [hEq o hLive] at hPerm
    exact hShows.perm o perm hLive hPerm
  · intro o perm hLive hPerm
    rw [hEq o hLive] at hPerm
    exact hShows.programmed o perm hLive hPerm
  · intro n hn hNone
    apply hShows.silent n hn
    intro o perm hLive hPerm
    rw [← hEq o hLive] at hPerm
    exact hNone o perm hLive hPerm

/- A view carries over to a machine in which the owners it names have the same regions. -/
theorem Shows.transfer (hShows : Shows P m v c)
    (hSame : ∀ o perm, v o = some perm → (o.Live m' ↔ o.Live m) ∧
      (o.Live m' → o.region m' = o.region m)) : Shows P m' v c := by
  refine ⟨hShows.unlocked, ?_, ?_, ?_⟩
  · intro o perm hLive hPerm
    exact hShows.perm o perm ((hSame o perm hPerm).1.mp hLive) hPerm
  · intro o perm hLive hPerm
    rw [(hSame o perm hPerm).2 hLive]
    exact hShows.programmed o perm ((hSame o perm hPerm).1.mp hLive) hPerm
  · intro n hn hNone
    apply hShows.silent n hn
    intro o perm hLive hPerm
    have hLive' := (hSame o perm hPerm).1.mpr hLive
    rw [← (hSame o perm hPerm).2 hLive']
    exact hNone o perm hLive' hPerm

/- Programming a region. -/
theorem Shows.set (hInv : RegionInv P m) (hAlone : EpmAlone m) (hShows : Shows P m v c)
    (hLive : o.Live m) (hPerm : MonitorPerm perm) :
    Shows P m (v.set o perm) (pmpSetBank P (o.region m) perm c) := by
  have hWf := hInv.wellFormed hLive
  have hReg := hInv.regIdx_lt hLive
  have hApply := pmpSetBank_apply hShows.unlocked hWf hPerm hReg
  refine ⟨hShows.unlocked.setBank hWf hPerm hReg, ?_, ?_, ?_⟩
  · intro o' perm' hLive' hView
    simp only [View.set] at hView
    split at hView
    · cases hView
      exact hPerm
    · split at hView
      · cases hView
      · exact hShows.perm o' perm' hLive' hView
  · intro o' perm' hLive' hView n hUses
    rw [hApply]
    simp only [View.set] at hView
    split at hView
    · rename_i hEq
      subst hEq
      cases hView
      rw [if_pos hUses]
    · rename_i hNe
      split at hView
      · cases hView
      · rename_i hBottom
        rw [Bool.not_eq_true] at hBottom
        -- the other owner's registers are not written
        have hNot : usesReg (o.region m) n = false := by
          cases hWritten : usesReg (o.region m) n with
          | false => rfl
          | true =>
            have hApart := regs_apart hInv hAlone hLive hLive' hNe hBottom hWritten
            cases hApart.symm.trans hUses
        rw [hNot]
        exact hShows.programmed o' perm' hLive' hView n hUses
  · intro n hn hNone
    have hNot : usesReg (o.region m) n = false := hNone o perm hLive (by simp [View.set])
    rw [hApply, hNot]
    apply hShows.silent n hn
    intro o' perm' hLive' hView
    by_cases hEq : o' = o
    · rw [hEq]
      exact hNot
    · by_cases hBottom : (o.isBottom && o'.isBottom) = true
      · have hIff := bottom_uses_iff hInv hLive hLive' hBottom n
        cases hUses : usesReg (o'.region m) n with
        | false => rfl
        | true => cases hNot.symm.trans (hIff.mpr hUses)
      · apply hNone o' perm' hLive'
        simp only [View.set]
        rw [if_neg hEq, if_neg hBottom]
        exact hView

theorem Shows.unset (hInv : RegionInv P m) (hAlone : EpmAlone m) (hShows : Shows P m v c)
    (hLive : Owner.Live m (.epm eid)) :
    Shows P m (v.drop (.epm eid)) (pmpUnsetBank P (Owner.region m (.epm eid)) c) := by
  have hReg := hInv.regIdx_lt hLive
  have hApply := pmpUnsetBank_apply hShows.unlocked hReg
  refine ⟨hShows.unlocked.unsetBank hReg, ?_, ?_, ?_⟩
  · intro o perm hLive' hView
    simp only [View.drop] at hView
    split at hView
    · cases hView
    · exact hShows.perm o perm hLive' hView
  · intro o perm hLive' hView n hUses
    simp only [View.drop] at hView
    split at hView
    · cases hView
    · rename_i hNe
      rw [hApply]
      have hNot : usesReg (Owner.region m (.epm eid)) n = false := by
        cases hCleared : usesReg (Owner.region m (.epm eid)) n with
        | false => rfl
        | true =>
          have hApart := hAlone eid o n hLive hLive' hNe hCleared
          cases hApart.symm.trans hUses
      rw [hNot]
      exact hShows.programmed o perm hLive' hView n hUses
  · intro n hn hNone
    rw [hApply]
    split
    · left
      exact AddrMatch.ofCfg_zero
    · rename_i hNot
      rw [Bool.not_eq_true] at hNot
      apply hShows.silent n hn
      intro o perm hLive' hView
      by_cases hEq : o = .epm eid
      · rw [hEq]
        exact hNot
      · apply hNone o perm hLive'
        simp only [View.drop]
        rw [if_neg hEq]
        exact hView

----
-- Deciding An Access
----

/- Every region ends below the reach of the registers. -/
def ReachInv (m : Machine) : Prop := ∀ o : Owner, o.Live m → WithinReach (o.region m)

variable {a : Nat}

theorem Shows.entry_owner (hInv : RegionInv P m) (hShows : Shows P m v c) (hn : n < P.pmpNReg)
    (hNotSilent : ¬ (c n).Silent) : ∃ o perm, o.Live m ∧ v o = some perm ∧ n = (o.region m).regIdx ∧
    ∀ access : Access, (c n).cfg.getLsbD access.bit = decide (perm = pmpAllPerm) := by
  by_cases hSome : ∃ o perm, Owner.Live m o ∧ v o = some perm ∧ usesReg (o.region m) n = true
  · rcases hSome with ⟨o, perm, hLive, hView, hUses⟩
    have hProg := hShows.programmed o perm hLive hView
    have hPerm := hShows.perm o perm hLive hView
    have hIdx : n = (o.region m).regIdx := by
      by_contra hNe
      exact hNotSilent (hProg.below_silent hUses hNe)
    refine ⟨o, perm, hLive, hView, hIdx, ?_⟩
    intro access
    rw [hIdx]
    exact hProg.perm_bit (hInv.wellFormed hLive) hPerm access
  · refine absurd (hShows.silent n hn ?_) hNotSilent
    intro o perm hLive hView
    cases hUses : usesReg (o.region m) n with
    | false => rfl
    | true => exact absurd ⟨o, perm, hLive, hView, hUses⟩ hSome

theorem not_silent_of_match (hMatch : matchesEntry c n a = true) : ¬ (c n).Silent := by
  intro hSilent
  rw [matchesEntry_of_silent hSilent] at hMatch
  cases hMatch

section

variable (hInv : RegionInv P m)
include hInv

/- An entry that matches belongs to an owner of the view, whose region covers the address. -/
theorem Shows.match_owner (hReach : ReachInv m) (hShows : Shows P m v c) (ha : a < 2 ^ 56)
    (hn : n < P.pmpNReg) (hMatch : matchesEntry c n a = true) :
    ∃ o perm, o.Live m ∧ v o = some perm ∧ n = (o.region m).regIdx ∧ (o.region m).Covers a ∧
    ∀ access : Access, (c n).cfg.getLsbD access.bit = decide (perm = pmpAllPerm) := by
  rcases hShows.entry_owner hInv hn (not_silent_of_match hMatch) with
    ⟨o, perm, hLive, hView, hIdx, hBit⟩
  have hIff :=
    (hShows.programmed o perm hLive hView).matches_iff (hShows.perm o perm hLive hView)
      (hInv.wellFormed hLive) (hReach o hLive)
      (hInv.placed hLive) ha
  refine ⟨o, perm, hLive, hView, hIdx, ?_, hBit⟩
  rw [hIdx] at hMatch
  exact hIff.mp hMatch

theorem Shows.owner_match (hShows : Shows P m v c) (ha : a < 2 ^ 56)
    (hReach : WithinReach (o.region m)) (hLive : o.Live m) (hView : v o = some perm)
    (hCovers : (o.region m).Covers a) : matchesEntry c (o.region m).regIdx a = true :=
  ((hShows.programmed o perm hLive hView).matches_iff
    (hShows.perm o perm hLive hView) (hInv.wellFormed hLive)
    hReach (hInv.placed hLive) ha).mpr hCovers

/- The owner that decides: an access is allowed iff the first covering owner of the view has all
   permissions. -/
theorem Shows.decided (hReach : ReachInv m) (hShows : Shows P m v c) (ha : a < 2 ^ 56)
    (hLive : o.Live m) (hView : v o = some perm) (hCovers : (o.region m).Covers a)
    (access : Access) : ∃ o' perm', o'.Live m ∧ v o' = some perm' ∧ (o'.region m).Covers a ∧
    (o'.region m).regIdx ≤ (o.region m).regIdx ∧
    allows P.pmpNReg c access a = decide (perm' = pmpAllPerm) := by
  have hMatch := hShows.owner_match hInv ha (hReach o hLive) hLive hView hCovers
  have hReg := hInv.regIdx_lt hLive
  rcases exists_firstMatch hReg hMatch with ⟨n, hFirst, hn, hMatch', hLe⟩
  rcases hShows.match_owner hInv hReach ha hn hMatch'
    with ⟨o', perm', hLive', hView', hIdx, hCov, hBit⟩
  refine ⟨o', perm', hLive', hView', hCov, ?_, ?_⟩
  · rw [← hIdx]
    exact hLe
  · rw [allows_of_firstMatch hFirst, hBit]

theorem Shows.undecided (hReach : ReachInv m) (hShows : Shows P m v c) (ha : a < 2 ^ 56)
    (hNone : ∀ o perm, o.Live m → v o = some perm → ¬ (o.region m).Covers a) (access : Access) :
    allows P.pmpNReg c access a = false := by
  apply allows_of_no_match
  rw [firstMatch_eq_none_iff]
  intro n hn
  cases hMatch : matchesEntry c n a with
  | false => rfl
  | true =>
    rcases hShows.match_owner hInv hReach ha hn hMatch with ⟨o, perm, hLive, hView, _, hCov, _⟩
    exact absurd hCov (hNone o perm hLive hView)

theorem RegionInv.os_covers (ha : a < 2 ^ 56) : (Owner.region m .os).Covers a := by
  have hDesc := hInv.desc .os trivial
  unfold PmpRegion.Covers
  rw [hDesc.1, hDesc.2.1, allMemory_toNat]
  simp only [BitVec.toNat_ofNat, Nat.zero_mod, Nat.zero_add]
  omega

theorem RegionInv.denied_below_os (hAlone : EpmAlone m) (hLive : o.Live m)
    (hView : View.host o = some pmpNoPerm) : (o.region m).regIdx < P.pmpNReg - 1 := by
  have hLt := hInv.regIdx_lt hLive
  have hNe : (o.region m).regIdx ≠ P.pmpNReg - 1 := by
    intro hEq
    have hOs := (hInv.uses_os (P.pmpNReg - 1)).mpr rfl
    have hUses : usesReg (o.region m) (P.pmpNReg - 1) = true := by
      rw [← hEq]
      exact usesReg_regIdx _
    have hBottom : (o.isBottom && Owner.os.isBottom) = false := by
      cases o with
      | sm => rfl
      | os => cases hView
      | epm e => rfl
      | utm e => cases hView
    have hNe' : Owner.os ≠ o := by
      intro hEq'
      rw [← hEq'] at hBottom
      cases hBottom
    have hOsLive : Owner.Live m .os := trivial
    have hNot := regs_apart hInv hAlone hLive hOsLive hNe' hBottom hUses
    cases hNot.symm.trans hOs
  omega

/- The host is denied a protected region that the registers can express, whatever the other regions
   are. -/
theorem Shows.host_denied (hAlone : EpmAlone m) (hShows : Shows P m View.host c) (ha : a < 2 ^ 56)
    (hReach : WithinReach (o.region m)) (hLive : o.Live m) (hView : View.host o = some pmpNoPerm)
    (hCovers : (o.region m).Covers a) (access : Access) : allows P.pmpNReg c access a = false := by
  have hMatch := hShows.owner_match hInv ha hReach hLive hView hCovers
  have hReg := hInv.regIdx_lt hLive
  have hBelow := hInv.denied_below_os hAlone hLive hView
  have hOsIdx := (hInv.desc .os trivial).2.2.2.2
  rcases exists_firstMatch hReg hMatch with ⟨n, hFirst, hn, hMatch', hLe⟩
  rcases hShows.entry_owner hInv hn (not_silent_of_match hMatch') with
    ⟨o', perm', _, hView', hIdx, hBit⟩
  rw [allows_of_firstMatch hFirst, hBit]
  -- the operating system's entry comes too late
  cases o' with
  | sm | epm e =>
    cases hView'
    decide
  | os => omega
  | utm e => cases hView'

/- An access of the host is allowed outside the monitor and outside every enclave. -/
theorem Shows.allows_host_iff (hAlone : EpmAlone m) (hReach : ReachInv m)
    (hShows : Shows P m View.host c) (ha : a < 2 ^ 56) (access : Access) :
    allows P.pmpNReg c access a = true ↔ ¬ (Owner.region m .sm).Covers a ∧
    ∀ eid, Owner.Live m (.epm eid) → ¬ (Owner.region m (.epm eid)).Covers a := by
  constructor
  · intro hAllowed
    refine ⟨?_, ?_⟩
    · intro hCovers
      have hNot := hShows.host_denied hInv hAlone ha (hReach .sm trivial) trivial rfl hCovers access
      cases hNot.symm.trans hAllowed
    · intro eid hLive hCovers
      have hNot := hShows.host_denied hInv hAlone ha
        (hReach (.epm eid) hLive) hLive rfl hCovers access
      cases hNot.symm.trans hAllowed
  · rintro ⟨hSm, hEpm⟩
    rcases hShows.decided hInv hReach ha (o := .os) trivial rfl (hInv.os_covers ha) access with
      ⟨o', perm', hLive', hView', hCov, _, hAllows⟩
    rw [hAllows]
    cases o' with
    | sm => exact absurd hCov hSm
    | epm e => exact absurd hCov (hEpm e hLive')
    | os =>
      cases hView'
      decide
    | utm e => cases hView'

theorem RegionInv.owner_unique (hLive : o.Live m) (hLive' : o'.Live m) (hOs : o ≠ .os)
    (hOs' : o' ≠ .os) (hCovers : (o.region m).Covers a) (hCovers' : (o'.region m).Covers a) :
    o = o' := by
  have hStrict : ∀ {o : Owner}, o.Live m → o ≠ .os → (o.region m).allowOverlap = false := by
    intro o hL hNe
    have hDesc := hInv.desc o hL
    cases o with
    | sm => exact hDesc.2.2.2.1
    | os => exact absurd rfl hNe
    | epm e | utm e => exact hDesc.1
  by_contra hNe
  have hRid : o.rid m ≠ o'.rid m := by
    intro hEq
    exact hNe (hInv.inj o o' hLive hLive' hEq)
  exact hInv.table.disjoint _ _ (hInv.valid o hLive) (hInv.valid o' hLive') hRid (hStrict hLive hOs)
    (hStrict hLive' hOs') a ⟨hCovers, hCovers'⟩

/- An access of an enclave is allowed inside its own two regions. -/
theorem Shows.allows_enclave_iff (hReach : ReachInv m) (hUsed : (m.enclaves eid).state ≠ .invalid)
    (hShows : Shows P m (View.enclave eid) c) (ha : a < 2 ^ 56) (access : Access) :
    allows P.pmpNReg c access a = true ↔ (Owner.region m (.epm eid)).Covers a ∨
    (Owner.region m (.utm eid)).Covers a := by
  have hNotOs : ∀ {o : Owner} {perm : Byte}, View.enclave eid o = some perm → o ≠ .os := by
    intro o perm hView hEq
    rw [hEq] at hView
    cases hView
  -- the owner that covers the address decides
  have hOwn : ∀ o : Owner, o.Live m → View.enclave eid o = some pmpAllPerm → (o.region m).Covers a →
      allows P.pmpNReg c access a = true := by
    intro o hLive hView hCovers
    rcases hShows.decided hInv hReach ha hLive hView hCovers access with
      ⟨o', perm', hLive', hView', hCov, _, hAllows⟩
    have hEq := hInv.owner_unique hLive hLive' (hNotOs hView) (hNotOs hView') hCovers hCov
    subst hEq
    rw [hView] at hView'
    cases hView'
    rw [hAllows]
    decide
  constructor
  · intro hAllowed
    by_contra hOutside
    rw [not_or] at hOutside
    by_cases hSome : ∃ o perm, Owner.Live m o ∧ View.enclave eid o = some perm ∧
          (o.region m).Covers a
    · rcases hSome with ⟨o, perm, hLive, hView, hCovers⟩
      rcases hShows.decided hInv hReach ha hLive hView hCovers access with
        ⟨o', perm', hLive', hView', hCov, _, hAllows⟩
      rw [hAllows, decide_eq_true_eq] at hAllowed
      subst hAllowed
      cases o' with
      | sm =>
        have hSm : some pmpNoPerm = some pmpAllPerm := hView'
        cases hSm
      | os => cases hView'
      | epm e =>
        by_cases hEq : e = eid
        · rw [hEq] at hCov
          exact hOutside.1 hCov
        · simp only [View.enclave, hEq, if_false] at hView'
          cases hView'
      | utm e =>
        by_cases hEq : e = eid
        · rw [hEq] at hCov
          exact hOutside.2 hCov
        · simp only [View.enclave, hEq, if_false] at hView'
          cases hView'
    · have hNot := hShows.undecided hInv hReach ha (fun o perm hLive hView hCov =>
          hSome ⟨o, perm, hLive, hView, hCov⟩) access
      cases hNot.symm.trans hAllowed
  · rintro (hCovers | hCovers)
    · exact hOwn (.epm eid) hUsed (by simp [View.enclave]) hCovers
    · exact hOwn (.utm eid) hUsed (by simp [View.enclave]) hCovers

end

end Keystone
