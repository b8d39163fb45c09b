import Keystone.Sm.Context

/-
  Which of the enclave's registers the host gets to see.

  A return to the host restores the integer registers, the S-mode registers and the program counter
  from the slot. The floating-point registers stay as the enclave left them, and `mstatus` is joined
  from both sides.
-/

----
-- Two Sessions
----

namespace Keystone

open Function (update)

/- The architectural registers that software on a hart sees. The zero register reads as zero. -/
@[ext] structure HostView where
  x : Fin 32 → Word
  f : Fin 32 → Word
  fcsr : Word
  mstatus : Word
  csrs : Csrs
  pc : Word

/- The view of hart `h` when it leaves the monitor with frame `regs`. -/
def hostView (regs : TrapRegs) (m : Machine) (h : Nat) : HostView where
  x := update regs.x regZero 0
  f := (m.harts h).f
  fcsr := (m.harts h).fcsr
  mstatus := regs.mstatus
  csrs := (m.harts h).csrs
  pc := regs.mepc

/- Both hosts enter with the same registers. -/
structure SameEntry (a a' : Arrival) : Prop where
  regs : a.regs = a'.regs
  csrs : a.csrs = a'.csrs
  f : a.f = a'.f
  fcsr : a.fcsr = a'.fcsr

/- Both enclaves leave with the same request and value. -/
def SameRequest (b b' : Arrival) : Prop :=
  (leaveRequest b).map Prod.fst = (leaveRequest b').map Prod.fst

/- Both enclaves leave the same values in what a return to a host that entered with `a` does not
   restore. -/
structure SameResidue (a b b' : Arrival) : Prop where
  f : b.f = b'.f
  fcsr : b.fcsr = b'.fcsr
  mstatus : (b.regs.mstatus ^^^ b'.regs.mstatus) &&& ~~~(mstatusMask ||| a.regs.mstatus) = 0#64

/- What a host that entered with `a` sees after a leave of the given kind with `b`. -/
def returnedView (a b : Arrival) (kind : LeaveKind) : HostView where
  x :=
    update (kind.finish { a.regs with x := update a.regs.x regZero 0 }).x regZero 0
  f := b.f
  fcsr := b.fcsr
  mstatus := (b.regs.mstatus &&& ~~~mstatusMask) ||| a.regs.mstatus
  csrs := a.csrs
  pc := a.regs.mepc + 4#64

variable {P : Platform} {K : Crypto} {keys : Keys} {m₀ m₀' m₃ m₃' m₄ m₄' : Machine}
variable {as as' mid mid' : List Arrival} {a a' b b' : Arrival} {eid eid' : Nat}
variable {regs regs' : TrapRegs}

theorem leaveRequest_mstatus {kind : LeaveKind} {left : TrapRegs}
    (hRequest : leaveRequest b = some (kind, left)) : left.mstatus = b.regs.mstatus := by
  unfold leaveRequest at hRequest
  split at hRequest
  · split at hRequest
    · cases hRequest
      rfl
    · split at hRequest
      · cases hRequest
        rfl
      · cases hRequest
  · cases hRequest
    rfl
  · cases hRequest
    rfl

theorem Session.hostView_eq (hInv : LifeInv P m₀)
    (hSession : Session P K keys m₀ as eid a mid m₃ b regs m₄) : ∃ kind left,
    leaveRequest b = some (kind, left) ∧ hostView regs m₄ a.hart = returnedView a b kind := by
  rcases hSession.slot hInv with ⟨hInv₃, hCpu, hThread⟩
  rcases hSession.returns.frame hInv₃ with ⟨kind, left, hRequest, hRegs, hCsrs, hF, hFcsr⟩
  rw [hCpu] at hRegs hCsrs
  simp only [hThread, savedContext, leaveRequest_mstatus hRequest] at hRegs hCsrs
  refine ⟨kind, left, hRequest, ?_⟩
  subst hRegs
  apply HostView.ext
  · cases kind with
    | exit retval | stop request => rfl
  · exact hF
  · exact hFcsr
  · cases kind with
    | exit retval | stop request => rfl
  · exact hCsrs
  · cases kind with
    | exit retval | stop request => rfl

theorem returnedView_eq_iff (hEntry : SameEntry a a') (kind : LeaveKind) :
    returnedView a b kind = returnedView a' b' kind ↔ SameResidue a b b' := by
  constructor
  · intro hView
    refine ⟨congrArg HostView.f hView, congrArg HostView.fcsr hView, ?_⟩
    have hStatus := congrArg HostView.mstatus hView
    simp only [returnedView, ← hEntry.regs] at hStatus
    exact (recombined_eq_iff _ _ _ _).mp hStatus
  · intro hSame
    have hStatus := (recombined_eq_iff _ _ _ _).mpr hSame.mstatus
    apply HostView.ext
    · simp only [returnedView, hEntry.regs]
    · exact hSame.f
    · exact hSame.fcsr
    · simpa only [returnedView, hEntry.regs] using hStatus
    · exact hEntry.csrs
    · simp only [returnedView, hEntry.regs]

/- Two sessions that start from the same host registers and end with the same request give the host
   the same view exactly if the enclaves left the same floating-point state and the same bits of
   `mstatus` outside the mask, where the host had them clear. -/
theorem hostView_eq_iff (boot boot' : Nat → Hart) (mem mem' : Memory)
    (hInit : smInit P boot mem = some m₀) (hInit' : smInit P boot' mem' = some m₀')
    (hSession : Session P K keys m₀ as eid a mid m₃ b regs m₄)
    (hSession' : Session P K keys m₀' as' eid' a' mid' m₃' b' regs' m₄') (hEntry : SameEntry a a')
    (hRequest : SameRequest b b') :
    hostView regs m₄ a.hart = hostView regs' m₄' a'.hart ↔ SameResidue a b b' := by
  rcases hSession.hostView_eq (lifeInv_smInit hInit) with ⟨kind, left, hLeave, hView⟩
  rcases hSession'.hostView_eq (lifeInv_smInit hInit') with ⟨kind', left', hLeave', hView'⟩
  unfold SameRequest at hRequest
  rw [hLeave, hLeave'] at hRequest
  cases hRequest
  rw [hView, hView']
  exact returnedView_eq_iff hEntry kind

----
-- Sample Sessions
----

/- The enclave of the sample session exits with other values in `x5`, in its floating-point
   registers and in `mstatus`. -/
theorem samplePrivate_zero (x5 : Word) : update (sampleRegs 7).x regT0 x5 0 = 0 := by
  simp [sampleRegs, regA0, regT0, update]

def samplePrivate (x5 f mstatus : Word) : Arrival where
  hart := 1
  trap := .ecall sbiSmExitEnclave
  regs := { sampleRegs 7 with x := update (sampleRegs 7).x regT0 x5, mstatus := mstatus }
  csrs := { Csrs.zero with sepc := x5 }
  f := fun _ => f
  fcsr := f
  mip := 0
  mem := fun _ => 0
  env := sampleEnv
  zero := samplePrivate_zero x5

/- The call by which hart 1 enters. -/
def sampleEnter : Arrival := sampleTrap 1 (.ecall sbiSmRunEnclave) 0

theorem sample_closes (hInit : sampleInit = some m₀)
    (hHart : b.hart = 1) (hOut : ((sampleRun sampleSession).bind fun m =>
      (takeTrap .generic sampleCrypto sampleKeys m b).map fun r =>
      (r.1.ret, (r.2.cpus 1).isEnclave)) =
      some (some .success, false)) : ∃ m₃ regs m₄, Session .generic sampleCrypto sampleKeys m₀
    (sampleSession ++ [b]) 0 sampleEnter [] m₃ b regs
    m₄ := by
  have hEnter : ((sampleRun [createTrap]).bind fun m =>
            (takeTrap .generic sampleCrypto sampleKeys m sampleEnter).map fun r => r.1.ret) =
        some (some .success) := by
    decide +kernel
  have hIn : (sampleRun sampleSession).map (fun m => (m.cpus 1).isEnclave) = some true := by
    decide +kernel
  rcases Option.map_eq_some_iff.mp hIn with ⟨m₃, hRun, hInside⟩
  rw [hRun] at hOut
  rcases Option.map_eq_some_iff.mp hOut with ⟨⟨out, m₄⟩, hTake, hEq⟩
  rw [sampleRun_from hInit] at hRun hEnter
  rcases (Runs.exec_cons_iff _).mp hRun with ⟨m₁, hCreate, hRest⟩
  have hPre := (Runs.exec_singleton_iff _).mpr hCreate
  have hStep := (Runs.exec_singleton_iff _).mp hRest
  rw [hPre] at hEnter
  cases out with
  | returned retval outVal | firmware => cases hEq
  | trapExit ret regs =>
    have hOutside : (m₄.cpus 1).isEnclave = false := congrArg Prod.snd hEq
    refine ⟨m₃, regs, m₄, ⟨m₁, m₃, ⟨⟨_, [], rfl, hPre⟩, hStep, rfl⟩,
        ⟨.inl rfl, by decide, sampleStep_ret hEnter⟩,
        Runs.always_nil hInside⟩,
      ⟨hHart, hInside, ⟨ret, hTake⟩, hOutside⟩⟩

/- Exits that differ in `x5` and in an S-mode register give the host the same view. -/
theorem hostView_eq_iff_samplePrivate : ∃ m₀ m₃ regs m₄ m₃' regs' m₄',
    sampleInit = some m₀ ∧
    Session .generic sampleCrypto sampleKeys m₀ (sampleSession ++ [samplePrivate 1 0 0]) 0
    sampleEnter [] m₃ (samplePrivate 1 0 0) regs m₄ ∧
    Session .generic sampleCrypto sampleKeys m₀ (sampleSession ++ [samplePrivate 2 0 0]) 0
    sampleEnter [] m₃' (samplePrivate 2 0 0) regs'
    m₄' ∧
    hostView regs m₄ 1 = hostView regs' m₄' 1 := by
  rcases exists_sampleInit with ⟨m₀, hInit⟩
  rcases sample_closes (b := samplePrivate 1 0 0) hInit rfl
    (by decide +kernel) with ⟨m₃, regs, m₄, hSession⟩
  rcases sample_closes (b := samplePrivate 2 0 0) hInit rfl
    (by decide +kernel) with ⟨m₃', regs', m₄', hSession'⟩
  refine ⟨m₀, m₃, regs, m₄, m₃', regs', m₄', hInit, hSession, hSession', ?_⟩
  exact (hostView_eq_iff sampleBoot sampleBoot (fun _ => 0)
    (fun _ => 0) hInit hInit hSession hSession'
    ⟨rfl, rfl, rfl, rfl⟩ rfl).mpr ⟨rfl, rfl, by decide⟩

/- Exits with other floating-point registers, or with other vector-unit bits of `mstatus`, show. -/
theorem hostView_fails_on_f_and_vs : ∃ m₀ m₃ regs m₄,
    sampleInit = some m₀ ∧
    Session .generic sampleCrypto sampleKeys m₀ (sampleSession ++ [samplePrivate 0 0 0]) 0
    sampleEnter [] m₃ (samplePrivate 0 0 0) regs m₄ ∧
    (∃ m₃' regs' m₄', Session .generic sampleCrypto sampleKeys m₀
      (sampleSession ++ [samplePrivate 0 9 0]) 0
      sampleEnter [] m₃' (samplePrivate 0 9 0)
      regs' m₄' ∧
      SameRequest (samplePrivate 0 0 0) (samplePrivate 0 9 0) ∧
      hostView regs m₄ 1 ≠ hostView regs' m₄' 1) ∧
    ∃ m₃' regs' m₄', Session .generic sampleCrypto sampleKeys m₀
    (sampleSession ++ [samplePrivate 0 0 0x200]) 0
    sampleEnter [] m₃' (samplePrivate 0 0 0x200)
    regs' m₄' ∧
    SameRequest (samplePrivate 0 0 0) (samplePrivate 0 0 0x200) ∧
    hostView regs m₄ 1 ≠ hostView regs' m₄' 1 := by
  rcases exists_sampleInit with ⟨m₀, hInit⟩
  have hInv := lifeInv_smInit hInit
  rcases sample_closes (b := samplePrivate 0 0 0) hInit rfl
    (by decide +kernel) with ⟨m₃, regs, m₄, hSession⟩
  rcases hSession.hostView_eq hInv with ⟨kind, left, _, hView⟩
  refine ⟨m₀, m₃, regs, m₄, hInit, hSession, ?_, ?_⟩
  · rcases sample_closes (b := samplePrivate 0 9 0) hInit rfl (by decide +kernel) with
      ⟨m₃', regs', m₄', hSession'⟩
    rcases hSession'.hostView_eq hInv with ⟨kind', left', _, hView'⟩
    refine ⟨m₃', regs', m₄', hSession', rfl, ?_⟩
    intro hEq
    have hSame := hView.symm.trans (hEq.trans hView')
    have hFcsr : (0 : Word) = 9 := congrArg HostView.fcsr hSame
    cases hFcsr
  · rcases sample_closes (b := samplePrivate 0 0 0x200) hInit rfl (by decide +kernel) with
      ⟨m₃', regs', m₄', hSession'⟩
    rcases hSession'.hostView_eq hInv with ⟨kind', left', _, hView'⟩
    refine ⟨m₃', regs', m₄', hSession', rfl, ?_⟩
    intro hEq
    have hSame := hView.symm.trans (hEq.trans hView')
    have hStatus : ((0 : Word) &&& ~~~mstatusMask) ||| 0 = (0x200 &&& ~~~mstatusMask) ||| 0 :=
      congrArg HostView.mstatus hSame
    cases hStatus

end Keystone
