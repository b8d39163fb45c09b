import Keystone.Sm.Lifecycle
import Keystone.Sm.Measurement

/-
  What an attestation report carries out of the monitor.

  `attest_enclave` builds the report in a local variable that is not cleared and fills `size` bytes
  of its data array. The whole structure is then copied to the enclave, so the rest of the array
  shows what the stack held before.
-/

----
-- The Bytes That Leave
----

namespace Keystone

open ByteMemory

variable {sent hash bytes : List Byte} {stack stack' : Report}

/- The bytes that `attest_enclave` passes to `copy_enclave_report`, if it gets there. -/
def attestCopies (P : Platform) (K : Crypto) (keys : Keys) (env : Env) (m : Machine) (h : Nat)
    (data size : Word) (eid : Nat) : Option (List Byte) :=
  if attestDataMaxlen < size.toNat then none
  else if !(enclaveExists P m eid && decide (EnclaveState.fresh.code ≤
        (m.enclaves eid).state.code)) then none
  else
    (copyToSm (m.mprv P env h) m.mem true data size.toNat).map fun bytes =>
        (attestReport K keys env.reportStack (m.enclaves eid).hash bytes size).bytes

variable {P : Platform} {K : Crypto} {keys : Keys} {env : Env} {m : Machine} {h eid : Nat}
variable {data size : Word}

theorem attestCopies_cases (hCopies : attestCopies P K keys env m h data size eid = some sent) :
    size.toNat ≤ attestDataMaxlen ∧ ∃ bytes, copyToSm (m.mprv P env h) m.mem true data
    size.toNat = some bytes ∧
    sent = (attestReport K keys env.reportStack (m.enclaves eid).hash bytes size).bytes := by
  unfold attestCopies at hCopies
  split at hCopies
  · cases hCopies
  rename_i hSize
  split at hCopies
  · cases hCopies
  rcases Option.map_eq_some_iff.mp hCopies with ⟨bytes, hBytes, hSent⟩
  exact ⟨Nat.le_of_not_lt hSize, bytes, hBytes, hSent.symm⟩

----
-- Two Executions
----

/- The previous contents of the stack have the size of the data array. -/
def Env.FullStack (env : Env) : Prop := env.reportStack.enclave.data.length = attestDataMaxlen

/- Two calls attest one measurement with the same data bytes. -/
structure AttestsAlike (P : Platform) (env env' : Env) (m m' : Machine) (h h' eid eid' : Nat)
    (data data' size : Word) : Prop where
  hash : (m.enclaves eid).hash = (m'.enclaves eid').hash
  bytes : copyToSm (m.mprv P env h) m.mem true data size.toNat =
      copyToSm (m'.mprv P env' h') m'.mem true data' size.toNat

/- The same call on a stack with every data byte changed. -/
def Env.disturbed (env : Env) : Env :=
  { env with
    reportStack :=
      { env.reportStack with
        enclave :=
          { env.reportStack.enclave with
            data :=
              env.reportStack.enclave.data.map (· + 1) } } }

variable {env' : Env} {m' : Machine} {h' eid' : Nat} {data' : Word}

theorem Env.FullStack.disturbed (hStack : env.FullStack) : env.disturbed.FullStack :=
  (List.length_map _).trans hStack

theorem attestReport_bytes_inj (hLength : stack.enclave.data.length = stack'.enclave.data.length)
    (hSame : (attestReport K keys stack hash bytes size).bytes =
      (attestReport K keys stack' hash bytes size).bytes) :
    stack.enclave.data.drop bytes.length = stack'.enclave.data.drop bytes.length := by
  simp only [attestReport, Report.bytes, EnclaveReport.bytes, List.append_assoc,
    List.append_cancel_left_eq] at hSame
  have hData : (overwrite stack.enclave.data bytes).length =
      (overwrite stack'.enclave.data bytes).length := by
    simp only [overwrite, List.length_append, List.length_drop, hLength]
  have hArrays := (List.append_inj hSame hData).1
  exact List.append_cancel_left hArrays

/- With all of the array filled nothing of the stack is left, neither in the array nor under the
   signature. -/
theorem attestReport_full (hHash : hash.length = mdSize) (hSize : bytes.length = size.toNat)
    (hFull : stack.enclave.data.length ≤ bytes.length)
    (hFull' : stack'.enclave.data.length ≤ bytes.length) :
    attestReport K keys stack hash bytes size = attestReport K keys stack' hash bytes size := by
  have hSigned : ∀ signature : List Byte, (hash ++ wordBytes size ++ bytes ++ signature).take
      (mdSize + 8 + size.toNat) =
      hash ++ wordBytes size ++ bytes := by
    intro signature
    apply List.take_left'
    simp only [List.length_append, hHash, hSize, length_wordBytes]
  simp only [attestReport, overwrite, List.drop_eq_nil_of_le hFull,
    List.drop_eq_nil_of_le hFull', List.append_nil,
    EnclaveReport.bytes, hSigned]

theorem eq_nil_of_map_succ (hSame : bytes.map (· + 1) = bytes) : bytes = [] := by
  cases bytes with
  | nil => rfl
  | cons b bs =>
    exfalso
    have hHead := (List.cons.inj hSame).1
    bv_omega

theorem attestCopies_disturbed (hCopies : attestCopies P K keys env m h data size eid = some sent)
    (hBytes : copyToSm (m.mprv P env h) m.mem true data size.toNat = some bytes) :
    attestCopies P K keys env.disturbed m h data size eid =
    some (attestReport K keys env.disturbed.reportStack
      (m.enclaves eid).hash bytes size).bytes := by
  have hBytes' : copyToSm (m.mprv P env.disturbed h) m.mem true data size.toNat = some bytes :=
    hBytes
  unfold attestCopies at hCopies ⊢
  split at hCopies
  · cases hCopies
  rename_i hSize
  rw [if_neg hSize]
  split at hCopies
  · cases hCopies
  rename_i hReady
  rw [if_neg hReady, hBytes', Option.map_some]

theorem length_copyToSm {v : Mprv} {mem : Memory} {n : Nat}
    (hCopy : copyToSm v mem true data n = some bytes) : bytes.length = n := by
  rcases copyToSm_loads hCopy with ⟨src', hLoads⟩
  have hLength := hLoads.length_got
  simpa using hLength

/- The report is a function of what it attests exactly if the data fills the whole array. -/
theorem report_fixed_iff (P : Platform) (K : Crypto) (keys : Keys) (env : Env) (m : Machine)
    (h eid : Nat) (data size : Word) (sent : List Byte) (hStack : env.FullStack)
    (hHash : (m.enclaves eid).hash.length = mdSize)
    (hCopies : attestCopies P K keys env m h data size eid = some sent) :
    (∀ env' m' h' eid' data' sent', env'.FullStack → AttestsAlike P env env' m m' h h' eid eid' data
      data' size →
      attestCopies P K keys env' m' h' data' size eid' = some sent' → sent' = sent) ↔
    size.toNat = attestDataMaxlen := by
  rcases attestCopies_cases hCopies with ⟨hLe, bytes, hBytes, hSent⟩
  have hLength := length_copyToSm hBytes
  constructor
  · intro hFixed
    have hFull := hStack.disturbed
    have hSame := hFixed env.disturbed m h eid data _ hFull
      ⟨rfl, rfl⟩ (attestCopies_disturbed hCopies hBytes)
    rw [hSent] at hSame
    have hTail := attestReport_bytes_inj (hFull.trans hStack.symm) hSame
    have hNil := eq_nil_of_map_succ ((List.map_drop ..).trans hTail)
    have hZero := congrArg List.length hNil
    rw [List.length_drop, hStack, hLength] at hZero
    simp only [List.length_nil] at hZero
    omega
  · intro hSize env' m' h' eid' data' sent' hFull hAlike hCopies'
    rcases attestCopies_cases hCopies' with ⟨_, bytes', hBytes', hSent'⟩
    have hData := hAlike.bytes
    rw [hBytes, hBytes'] at hData
    cases hData
    rw [hSent, hSent', ← hAlike.hash]
    have hCovers : ∀ env : Env, env.FullStack → env.reportStack.enclave.data.length ≤
        bytes.length := by
      intro env hEnv
      rw [hEnv, hLength, hSize]
    rw [attestReport_full hHash hLength (hCovers env' hFull) (hCovers env hStack)]

/- A stack on which the report is all zero. -/
def clearedEnv : Env :=
  { sampleEnv with reportStack := ⟨⟨[], 0, List.replicate 1024 0, []⟩, [], [], [], []⟩ }

theorem attestCopies_sampleSession (hRun : sampleRun sampleSession = some m) (env : Env) :
    (m.enclaves 0).hash.length = mdSize ∧ copyToSm (m.mprv .generic env 1) m.mem true 0#64 0 =
    some [] ∧
    attestCopies .generic sampleCrypto sampleKeys env m 1 0#64 0#64 0 =
    some (attestReport sampleCrypto sampleKeys env.reportStack (m.enclaves 0).hash [] 0#64).bytes
    := by
  have hFacts : (sampleRun sampleSession).map (fun m =>
            (enclaveExists .generic m 0, (m.enclaves 0).state, (m.enclaves 0).hash.length)) =
        some (true, .running, 64) := by
    decide +kernel
  rw [hRun] at hFacts
  simp only [Option.map_some, Option.some.injEq, Prod.mk.injEq] at hFacts
  have hData : copyToSm (m.mprv .generic env 1) m.mem true 0#64 0 = some [] := rfl
  refine ⟨hFacts.2.2, hData, ?_⟩
  unfold attestCopies
  rw [if_neg (by decide), hFacts.1, hFacts.2.1, if_neg (by decide)]
  exact congrArg _ hData

theorem report_fixed_iff_sampleSession : ∃ m₀ m sent,
    sampleInit = some m₀ ∧
    Runs.exec sampleStep m₀ sampleSession = some m ∧
    attestCopies .generic sampleCrypto sampleKeys clearedEnv m 1 0#64 0#64 0 = some sent ∧
    ((∀ env' m' h' eid' data' sent', env'.FullStack →
      AttestsAlike .generic clearedEnv env' m m' 1 h' 0 eid' 0#64 data' 0#64 →
      attestCopies .generic sampleCrypto sampleKeys
      env' m' h' data' 0#64 eid' = some sent' →
      sent' = sent) ↔
      (0#64).toNat = attestDataMaxlen) := by
  rcases sampleSession_runs with ⟨m₀, m, hRun, hInit, hExec⟩
  rcases attestCopies_sampleSession hRun clearedEnv with ⟨hHash, _, hCopies⟩
  exact ⟨m₀, m, _, hInit, hExec, hCopies, report_fixed_iff .generic sampleCrypto sampleKeys
      clearedEnv m 1 0 0#64 0#64 _ List.length_replicate
      hHash hCopies⟩

/- Two attestations of no data by the same enclave, in the same state but for the previous contents
   of the monitor's stack, hand out different bytes. -/
theorem report_differs_on_sampleSession : ∃ m₀ m sent sent',
    sampleInit = some m₀ ∧
    Runs.exec sampleStep m₀ sampleSession = some m ∧
    clearedEnv.FullStack ∧
    clearedEnv.disturbed.FullStack ∧
    AttestsAlike .generic clearedEnv clearedEnv.disturbed m m 1 1 0 0 0#64 0#64 0#64 ∧
    attestCopies .generic sampleCrypto sampleKeys clearedEnv m 1 0#64 0#64 0 = some sent ∧
    attestCopies .generic sampleCrypto sampleKeys clearedEnv.disturbed m 1 0#64 0#64 0 =
    some sent' ∧
    sent ≠ sent' := by
  rcases sampleSession_runs with ⟨m₀, m, hRun, hInit, hExec⟩
  have hFull : clearedEnv.FullStack := List.length_replicate
  have hFull' := hFull.disturbed
  refine ⟨m₀, m, _, _, hInit, hExec, hFull, hFull', ⟨rfl, rfl⟩,
    (attestCopies_sampleSession hRun clearedEnv).2.2,
    (attestCopies_sampleSession hRun clearedEnv.disturbed).2.2, ?_⟩
  intro hSame
  have hTail := attestReport_bytes_inj (hFull.trans hFull'.symm) hSame
  have hNil := eq_nil_of_map_succ hTail.symm
  cases hFull.symm.trans (congrArg List.length hNil)

end Keystone
