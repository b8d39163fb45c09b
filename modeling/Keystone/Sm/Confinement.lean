import Keystone.Sm.Isolation

/-
  What the monitor writes on behalf of an enclave.

  Reports and plugin results are copied through `MPRV`, so that only bytes the enclave could write
  itself change. A sealing key is stored through the enclave's pointer as it is, behind an array on
  the stack whose length the enclave chooses. The writes are confined if and only if that pointer is
  harmless.
-/

----
-- Services Through MPRV
----

namespace Keystone

open BitVec (ofNat)
open List (eq_of_mem_replicate mem_append replicate)
open ByteMemory

variable {P : Platform} {K : Crypto} {keys : Keys} {env : Env} {m : Machine} {h eid : Nat}
variable {b funcid : Word} {regs : TrapRegs}

theorem attestEnclave_frame (reportPtr data size : Word) :
    SameOutside (Writable (m.mprv P env h)) m.mem
    (attestEnclave P K keys env m h reportPtr data size eid).2.mem := by
  unfold attestEnclave
  split
  · exact .refl _ m.mem
  split
  · exact .refl _ m.mem
  split
  · exact .refl _ m.mem
  · dsimp only
    split
    · exact copyFromSm_frame _ _ _ _ _
    · exact copyFromSm_frame _ _ _ _ _

theorem copyOneWord_frame (v : Mprv) (mem : Memory) (dst value : Word) :
    SameOutside (Writable v) mem (copyOneWord v mem dst value).2 := by
  have hStores : Stores v ⟨false, mem, dst, wordBytes value⟩ (copyWordFromSm v
      ⟨false, mem, dst, wordBytes value⟩) := by
    apply CopyOut.store_stores
    intro _
    simp [wordBytes, regBytes]
  exact hStores.sameOutside

theorem callPlugin_frame (pluginId callId arg0 : Word) :
    SameOutside (Writable (m.mprv P env h)) m.mem (callPlugin P env m h eid pluginId callId
      arg0).2.mem := by
  have hOther : ∀ get, SameOutside (Writable (m.mprv P env h)) m.mem
      (multimemGetOther P env m h eid get arg0).2.mem := by
    intro get
    unfold multimemGetOther
    split
    · exact .refl _ m.mem
    · exact copyOneWord_frame _ _ _ _
  unfold callPlugin doSbiMultimem
  split
  · split
    · exact hOther _
    split
    · exact hOther _
    · exact .refl _ m.mem
  · exact .refl _ m.mem

----
-- Sealing Keys
----

variable {mem : Memory} {S : Word → Prop} {sealingKey keyIdent keyIdentSize : Word}
variable {hash okm : List Byte}

/- The bytes that the two copies into `info` write. -/
def InfoBytes (env : Env) (keyIdentSize : Word) : Word → Prop :=
  InRange (infoAddr env keyIdentSize) (mdSize + keyIdentSize.toNat)

/- The bytes of a `struct sealing_key`. -/
def KeyBytes (sealingKey : Word) : Word → Prop :=
  InRange sealingKey (sealingKeySize + signatureSize)

/- The input of the key derivation. -/
def sealingInfo (env : Env) (mem : Memory) (keyIdent keyIdentSize : Word)
    (hash : List Byte) : List Byte :=
  readBytes (fillInfo env mem keyIdent keyIdentSize hash) (infoAddr env keyIdentSize)
    (64#64 + keyIdentSize).toNat

theorem fillInfo_frame (hInfo : ∀ b, InfoBytes env keyIdentSize b → S b) : SameOutside S mem
    (fillInfo env mem keyIdent keyIdentSize hash) := by
  have hHash : SameOutside S mem (storeBytes mem (infoAddr env keyIdentSize)
      (hash.take mdSize)) := by
    apply storeBytes_sameOutside
    intro b hRange
    apply hInfo b
    apply hRange.mono
    exact Nat.le_trans (List.length_take_le mdSize hash) (Nat.le_add_right _ _)
  refine hHash.trans (memcpy_sameOutside ?_)
  intro b hRange
  exact hInfo b hRange.shift

theorem getSealingKey_fails
    (hKdf : K.kdf [] keys.smPrivateKey (sealingInfo env m.mem keyIdent keyIdentSize
      (m.enclaves eid).hash) sealingKeySize = none) :
    (getSealingKey K keys env m sealingKey keyIdent keyIdentSize eid).2.mem =
    fillInfo env m.mem keyIdent keyIdentSize (m.enclaves eid).hash := by
  unfold sealingInfo at hKdf
  simp only [getSealingKey, smDeriveSealingKey, hKdf]
  rfl

theorem getSealingKey_stores (sealingKey : Word)
    (hKdf : K.kdf [] keys.smPrivateKey (sealingInfo env m.mem keyIdent keyIdentSize
      (m.enclaves eid).hash) sealingKeySize =
      some okm) :
    ∃ signed, (getSealingKey K keys env m sealingKey keyIdent keyIdentSize eid).2.mem = storeBytes
    (storeBytes (fillInfo env m.mem keyIdent keyIdentSize (m.enclaves eid).hash) sealingKey okm)
    (sealingKey + ofNat 64 sealingKeySize)
    (K.sign signed keys.smPublicKey keys.smPrivateKey) := by
  unfold sealingInfo at hKdf
  simp only [getSealingKey, smDeriveSealingKey, hKdf]
  exact ⟨_, rfl⟩

theorem getSealingKey_frame (hInfo : ∀ b, InfoBytes env keyIdentSize b → S b)
    (hKey : ∀ b, KeyBytes sealingKey b → S b) :
    SameOutside S m.mem (getSealingKey K keys env m sealingKey keyIdent
      keyIdentSize eid).2.mem := by
  cases hKdf : K.kdf [] keys.smPrivateKey (sealingInfo env m.mem keyIdent keyIdentSize
          (m.enclaves eid).hash) sealingKeySize with
  | none =>
    rw [getSealingKey_fails hKdf]
    exact fillInfo_frame hInfo
  | some okm =>
    rcases getSealingKey_stores sealingKey hKdf with ⟨signed, hMem⟩
    rw [hMem]
    refine SameOutside.trans (SameOutside.trans (fillInfo_frame hInfo) (storeBytes_sameOutside ?_))
      (storeBytes_sameOutside ?_)
    · intro b hRange
      rw [K.kdf_length _ _ _ _ _ hKdf] at hRange
      exact hKey b (hRange.mono (Nat.le_add_right _ _))
    · intro b hRange
      rw [K.sign_length] at hRange
      exact hKey b hRange.shift

theorem sealingKey_written
    (hKdf : K.kdf [] keys.smPrivateKey (sealingInfo env m.mem keyIdent keyIdentSize
      (m.enclaves eid).hash) sealingKeySize =
      some okm) (hKey : KeyBytes sealingKey b) :
    ∃ signed, (getSealingKey K keys env m sealingKey keyIdent keyIdentSize eid).2.mem b ∈
    okm ++ K.sign signed keys.smPublicKey
    keys.smPrivateKey := by
  rcases getSealingKey_stores sealingKey hKdf with ⟨signed, hMem⟩
  have hLength := K.sign_length signed keys.smPublicKey keys.smPrivateKey
  refine ⟨signed, ?_⟩
  rw [hMem, mem_append]
  by_cases hSigned : InRange (sealingKey + ofNat 64 sealingKeySize) signatureSize b
  · right
    apply storeBytes_mem
    rw [hLength]
    exact hSigned
  · left
    have hFirst := hKey.split.resolve_right hSigned
    rw [storeBytes_frame _ (by rw [hLength]; exact hSigned)]
    apply storeBytes_mem
    rw [K.kdf_length _ _ _ _ _ hKdf]
    exact hFirst

theorem sealingInfo_written (keys : Keys) (keyIdent : Word)
    (hHash : InRange (infoAddr env keyIdentSize) ((m.enclaves eid).hash.take mdSize).length b)
    (hIdent : ¬ InRange (infoAddr env keyIdentSize + ofNat 64 mdSize) keyIdentSize.toNat b)
    (hKey : ¬ KeyBytes sealingKey b) : (getSealingKey K keys env m sealingKey keyIdent
      keyIdentSize eid).2.mem b ∈ (m.enclaves eid).hash := by
  have hFill : fillInfo env m.mem keyIdent keyIdentSize (m.enclaves eid).hash b ∈
      (m.enclaves eid).hash := by
    unfold fillInfo
    rw [memcpy_frame _ hIdent]
    exact List.mem_of_mem_take (storeBytes_mem _ hHash)
  cases hKdf : K.kdf [] keys.smPrivateKey (sealingInfo env m.mem keyIdent keyIdentSize
          (m.enclaves eid).hash) sealingKeySize with
  | none =>
    rw [getSealingKey_fails hKdf]
    exact hFill
  | some okm =>
    rcases getSealingKey_stores sealingKey hKdf with ⟨signed, hMem⟩
    rw [hMem, storeBytes_frame, storeBytes_frame]
    · exact hFill
    · rw [K.kdf_length _ _ _ _ _ hKdf]
      intro hRange
      exact hKey (hRange.mono (Nat.le_add_right _ _))
    · rw [K.sign_length]
      intro hRange
      exact hKey hRange.shift

----
-- Traps Of An Enclave
----

variable {n m' : Machine} {a : Arrival} {out : Outcome}

theorem sbiSmStop_mem {request : Word} (hCall : sbiSmStop P n h regs request = some (out, m')) :
    m'.mem = n.mem := by
  rcases Option.bind_eq_some_iff.mp hCall with ⟨⟨ret, regs', m₁⟩, hStop, hEq⟩
  cases hEq
  rcases leave_cases hStop with ⟨_, _, hSame⟩ | ⟨c, _, _, _, _, hNew⟩
  · rw [hSame]
  · rw [hNew]
    rfl

theorem sbiSmExit_mem {retval : Word} (hCall : sbiSmExit P n h regs retval = some (out, m')) :
    m'.mem = n.mem := by
  rcases Option.bind_eq_some_iff.mp hCall with ⟨⟨ret, regs', m₁⟩, hExit, hEq⟩
  cases hEq
  rcases leave_cases hExit with ⟨_, _, hSame⟩ | ⟨c, _, _, _, _, hNew⟩
  · rw [hSame]
  · rw [hNew]
    rfl

theorem sbiEcallHandler_enclave (hIn : (n.cpus h).isEnclave = true)
    (hCall : sbiEcallHandler P K keys env n h funcid regs = some (out, m')) :
    m' = n ∨ fidRangeHost < funcid ∧ sbiDispatch P K keys env n h funcid regs = some (out, m') := by
  unfold sbiEcallHandler at hCall
  split at hCall
  · cases hCall
    exact .inl rfl
  split at hCall
  · cases hCall
    exact .inl rfl
  · rename_i hAllowed
    refine .inr ⟨?_, hCall⟩
    by_contra hNot
    apply hAllowed
    rw [sbiProhibited, if_pos (BitVec.not_lt.mp hNot), hIn]

/- A call of an enclave writes what it could write itself and, for a sealing key, the array and the
   key. -/
theorem sbiEcallHandler_frame (hIn : (n.cpus h).isEnclave = true)
    (hWritable : ∀ b, Writable (n.mprv P env h) b → S b)
    (hSealing : funcid = sbiSmGetSealingKey → (∀ b, InfoBytes env (regs.x regA2) b → S b) ∧
      ∀ b, KeyBytes (regs.x regA0) b → S b)
    (hCall : sbiEcallHandler P K keys env n h funcid regs = some (out, m')) :
    SameOutside S n.mem m'.mem := by
  rcases sbiEcallHandler_enclave hIn hCall with hSame | ⟨hRange, hCall⟩
  · rw [hSame]
    exact .refl S n.mem
  unfold sbiDispatch at hCall
  -- the first four calls are the host's
  iterate 4
    split at hCall
    · rename_i hEq
      subst hEq
      exact absurd hRange (by decide)
  split at hCall
  · cases hCall
    exact .refl S n.mem
  split at hCall
  · cases hCall
    exact (attestEnclave_frame _ _ _).mono hWritable
  split at hCall
  · rename_i hKey
    rcases hSealing hKey with ⟨hInfo, hBytes⟩
    cases hCall
    exact getSealingKey_frame hInfo hBytes
  split at hCall
  · rw [sbiSmStop_mem hCall]
    exact .refl S n.mem
  split at hCall
  · rw [sbiSmExit_mem hCall]
    exact .refl S n.mem
  split at hCall
  · cases hCall
    exact (callPlugin_frame _ _ _).mono hWritable
  · cases hCall
    exact .refl S n.mem

theorem takeTrap_frame (hIn : (m.cpus a.hart).isEnclave = true)
    (hWritable : ∀ b, Writable ((m.arrive a).mprv P a.env a.hart) b → S b)
    (hSealing : a.trap = .ecall sbiSmGetSealingKey →
      (∀ b, InfoBytes a.env (a.regs.x regA2) b → S b) ∧ ∀ b, KeyBytes (a.regs.x regA0) b → S b)
    (hTrap : takeTrap P K keys m a = some (out, m')) : SameOutside S a.mem m'.mem := by
  have hArrived : ((m.arrive a).cpus a.hart).isEnclave = true := hIn
  unfold takeTrap at hTrap
  simp only at hTrap
  split at hTrap
  · rename_i funcid hEcall
    refine sbiEcallHandler_frame hArrived hWritable ?_ hTrap
    intro hKey
    apply hSealing
    rw [hEcall, hKey]
  · split at hTrap
    · rw [sbiSmStop_mem hTrap]
      exact .refl S _
    · cases hTrap
      exact .refl S _
  · split at hTrap
    · rw [sbiSmExit_mem hTrap]
      exact .refl S _
    · cases hTrap
      exact .refl S _

----
-- Confinement
----

variable {sm : Word → Prop}

/- The two regions of the enclave, and the bytes `sm` of the monitor's variables and stack. -/
def OwnBytes (m : Machine) (eid : Nat) (sm : Word → Prop) (b : Word) : Prop :=
  (Owner.region m (.epm eid)).Covers b.toNat ∨ (Owner.region m (.utm eid)).Covers b.toNat ∨ sm b

/- The trap writes inside the set, whatever the contents of memory and the results of the
   primitives. -/
def TrapConfined (P : Platform) (m : Machine) (a : Arrival) (S : Word → Prop) : Prop :=
  ∀ K keys mem out m', takeTrap P K keys m { a with mem := mem } = some (out, m') →
      SameOutside S mem m'.mem

theorem Isolated.writable_own (hIsolated : Isolated P m) (hCpu : m.cpus a.hart = ⟨true, eid⟩)
    (hWritable : Writable ((m.arrive a).mprv P a.env a.hart) b) : OwnBytes m eid sm b := by
  simp only [Writable, pmpGrants, Machine.mprv, arrive_bank,
    Bool.and_eq_true, decide_eq_true_eq] at hWritable
  rcases hWritable with ⟨hPhysical, hAllows⟩
  have hOwn := ((hIsolated a.hart .write b.toNat hPhysical).2 eid hCpu).mp hAllows
  rcases hOwn with hEpm | hUtm
  · exact .inl hEpm
  · exact .inr (.inl hUtm)

theorem takeTrap_sealingKey (P : Platform) (K : Crypto) (keys : Keys)
    (hTrap : a.trap = .ecall sbiSmGetSealingKey) (hCpu : m.cpus a.hart = ⟨true, eid⟩) :
    ∃ out, takeTrap P K keys m a = some (out, (getSealingKey K keys a.env (m.arrive a)
      (a.regs.x regA0) (a.regs.x regA1)
      (a.regs.x regA2) eid).2) := by
  have hArrived : (m.arrive a).cpus a.hart = ⟨true, eid⟩ := hCpu
  have hAllowed : sbiProhibited (m.arrive a) a.hart sbiSmGetSealingKey =
      false := by
    rw [sbiProhibited, hArrived, if_neg (by decide), if_pos (by decide)]
    rfl
  refine ⟨.returned (getSealingKey K keys a.env (m.arrive a)
      (a.regs.x regA0) (a.regs.x regA1) (a.regs.x regA2)
      eid).1.code none, ?_⟩
  unfold takeTrap
  simp only [hTrap]
  rw [sbiEcallHandler, if_neg (by decide), hAllowed, if_neg Bool.false_ne_true]
  unfold sbiDispatch
  simp only [hArrived]
  rfl

/- Primitives whose results are ones. -/
def onesCrypto : Crypto where
  hash := fun _ => []
  sign := fun _ _ _ => replicate 64 1
  kdf := fun _ _ _ n => some (replicate n 1)
  sign_length := by simp
  kdf_length := by
    intro s k i n okm hOkm
    cases hOkm
    simp

/- A confined call has a harmless pointer: the key of the ones shows in every byte that was zero. -/
theorem TrapConfined.keyBytes (hConfined : TrapConfined P m a S)
    (hTrap : a.trap = .ecall sbiSmGetSealingKey) (hCpu : m.cpus a.hart = ⟨true, eid⟩)
    (hKey : KeyBytes (a.regs.x regA0) b) : S b := by
  by_contra hNot
  let keys : Keys := ⟨[], [], [], [], []⟩
  let zeroed : Arrival := { a with mem := fun _ => 0 }
  have hKdf : onesCrypto.kdf [] keys.smPrivateKey (sealingInfo a.env (m.arrive zeroed).mem
      (a.regs.x regA1) (a.regs.x regA2)
      ((m.arrive zeroed).enclaves eid).hash)
      sealingKeySize =
      some (replicate sealingKeySize 1) := rfl
  rcases sealingKey_written hKdf hKey with ⟨signed, hMem⟩
  have hTakes := takeTrap_sealingKey (m := m) (a := zeroed) P onesCrypto keys hTrap hCpu
  rcases hTakes with ⟨out, hTakes⟩
  have hSame := hConfined onesCrypto keys (fun _ => 0) out _ hTakes b hNot
  -- the byte was zero and holds a one
  have hOne : ∀ x : Byte, x ∈ replicate sealingKeySize (1 : Byte) ++
      onesCrypto.sign signed keys.smPublicKey keys.smPrivateKey →
      x = 1 := by
    intro x hx
    rcases mem_append.mp hx with hx | hx
    · exact eq_of_mem_replicate hx
    · exact eq_of_mem_replicate hx
  have hLast : (1 : Byte) = 0 := (hOne _ hMem).symm.trans hSame
  cases hLast

/- A trap of an enclave on an isolated machine, with room on the stack for the array of a sealing
   key. Its writes are confined if and only if a sealing key goes to bytes of the enclave or the
   monitor. The accesses under `MPRV` are all translated and granted. -/
theorem trapConfined_iff (sm : Word → Prop) (m : Machine) (a : Arrival) (eid : Nat)
    (hIsolated : Isolated P m) (hCpu : m.cpus a.hart = ⟨true, eid⟩)
    (hStack : a.trap = .ecall sbiSmGetSealingKey → ∀ b, InfoBytes a.env (a.regs.x regA2) b → sm b) :
    (TrapConfined P m a (OwnBytes m eid sm) ↔ (a.trap = .ecall sbiSmGetSealingKey →
      ∀ b, KeyBytes (a.regs.x regA0) b → OwnBytes m eid sm b)) ∧
    MprvChecked ((m.arrive a).mprv P a.env a.hart) := by
  refine ⟨⟨?_, ?_⟩, mprv_checked _⟩
  · intro hConfined hTrap b hKey
    exact hConfined.keyBytes hTrap hCpu hKey
  · intro hKeys K keys mem out m' hTake
    have hIn : (m.cpus a.hart).isEnclave = true := by
      rw [hCpu]
    have hWritable : ∀ b, Writable ((m.arrive { a with mem := mem }).mprv P a.env a.hart) b →
        OwnBytes m eid sm b :=
      fun b hb => hIsolated.writable_own hCpu hb
    refine takeTrap_frame (a := { a with mem := mem }) hIn hWritable ?_ hTake
    intro hTrap
    exact ⟨fun b hb => .inr (.inr (hStack hTrap b hb)), hKeys hTrap⟩

----
-- Sample Calls
----

/- The stack of hart 1, eight kilobytes. -/
def sampleStack (b : Word) : Prop := 0x8000e000#64 ≤ b ∧ b < 0x80010000#64

instance (b : Word) : Decidable (sampleStack b) := inferInstanceAs (Decidable (_ ∧ _))

theorem sampleSealing_zero (sealingKey keyIdentSize : Word) :
    Function.update (sampleRegs sealingKey).x regA2 keyIdentSize 0 = 0 := by
  simp [sampleRegs, regA0, regA2, Function.update]

def sampleSealing (sealingKey keyIdentSize : Word) : Arrival where
  hart := 1
  trap := .ecall sbiSmGetSealingKey
  regs :=
    { sampleRegs sealingKey with x := Function.update (sampleRegs sealingKey).x regA2 keyIdentSize }
  csrs := Csrs.zero
  f := fun _ => 0
  fcsr := 0
  mip := 0
  mem := fun _ => 1
  env := sampleEnv
  zero := sampleSealing_zero sealingKey keyIdentSize

/- The enclave of the sample run, and where it lies. -/
structure SampleEnclave (m : Machine) : Prop where
  isolated : Isolated .generic m
  cpu : m.cpus 1 = ⟨true, 0⟩
  hash : (m.enclaves 0).hash = replicate 64 0
  epm : (Owner.region m (.epm 0)).addr = 0x90000000 ∧ (Owner.region m (.epm 0)).size = 0x100000
  utm : (Owner.region m (.utm 0)).addr = 0x91000000 ∧ (Owner.region m (.utm 0)).size = 0x1000

theorem sampleSession_enclave : ∃ m₀ m, sampleInit = some m₀ ∧
    Runs.exec sampleStep m₀ sampleSession = some m ∧
    SampleEnclave m := by
  have hAll : (sampleRun sampleSession).map (fun m => (m.cpus 1, (m.enclaves 0).hash,
            ((Owner.region m (.epm 0)).addr, (Owner.region m (.epm 0)).size),
            (Owner.region m (.utm 0)).addr,
            (Owner.region m (.utm 0)).size)) =
        some (⟨true, 0⟩, replicate 64 0, (0x90000000, 0x100000), 0x91000000, 0x1000) := by
    decide +kernel
  rcases Option.map_eq_some_iff.mp hAll with ⟨m, hRun, hEq⟩
  simp only [Prod.mk.injEq] at hEq
  rcases hEq with ⟨hCpu, hHash, hEpm, hUtm⟩
  rcases Option.bind_eq_some_iff.mp hRun with ⟨m₀, hInit, hExec⟩
  rcases viewInv_run sampleBoot_clean hInit (sampleSession_exclusive hInit) hExec with
    ⟨hViews, hAlone⟩
  have hIsolated := hViews.isolated hAlone (reachInv_run hInit sampleSession_within hExec)
  exact ⟨m₀, m, hInit, hExec, hIsolated, hCpu, hHash, hEpm, hUtm⟩

theorem SampleEnclave.own_iff (hSample : SampleEnclave m) (b : Word) : OwnBytes m 0 sampleStack b ↔
    (0x90000000 ≤ b.toNat ∧ b.toNat < 0x90100000) ∨
    (0x91000000 ≤ b.toNat ∧ b.toNat < 0x91001000) ∨ sampleStack b := by
  simp only [OwnBytes, PmpRegion.Covers, hSample.epm.1, hSample.epm.2, hSample.utm.1, hSample.utm.2]
  rfl

/- A sealing key inside the enclave's own region. -/
theorem trapConfined_iff_sampleSealing : ∃ m₀ m, sampleInit = some m₀ ∧
    Runs.exec sampleStep m₀ sampleSession = some m ∧
    m.cpus 1 = ⟨true, 0⟩ ∧
    TrapConfined .generic m (sampleSealing 0x90000000 0) (OwnBytes m 0 sampleStack) ∧
    MprvChecked ((m.arrive (sampleSealing 0x90000000 0)).mprv .generic sampleEnv 1) := by
  rcases sampleSession_enclave with ⟨m₀, m, hInit, hExec, hSample⟩
  have hAddr : infoAddr sampleEnv 0 = 0x8000ffc0#64 := by
    decide
  have hInfo : ∀ i < 64, sampleStack (infoAddr sampleEnv 0 + ofNat 64 i) := by
    intro i hi
    rw [hAddr]
    unfold sampleStack
    bv_omega
  have hKey : ∀ i < 192, 0x90000000 ≤ (0x90000000#64 + ofNat 64 i).toNat ∧
      (0x90000000#64 + ofNat 64 i).toNat < 0x90100000 := by
    intro i hi
    bv_omega
  have hBoth := trapConfined_iff sampleStack m (sampleSealing 0x90000000 0) 0 hSample.isolated
    hSample.cpu (by
      rintro _ b ⟨i, hi, hEq⟩
      rw [hEq]
      exact hInfo i hi)
  refine ⟨m₀, m, hInit, hExec, hSample.cpu, hBoth.1.mpr ?_, hBoth.2⟩
  rintro _ b ⟨i, hi, hEq⟩
  rw [hSample.own_iff, hEq]
  exact .inl (hKey i hi)

/- The first call stores its key into memory of the host. The second one asks for a key in its own
   region, with a key identifier for which the stack is too short. -/
theorem trapConfined_fails_on_pointer_and_size : ∃ m₀ m out m₁ out' m₂,
    sampleInit = some m₀ ∧
    Runs.exec sampleStep m₀ sampleSession = some m ∧
    Isolated .generic m ∧
    m.cpus 1 = ⟨true, 0⟩ ∧
    takeTrap .generic sampleCrypto sampleKeys m (sampleSealing 0xa0000000 0) = some (out, m₁) ∧
    ¬ OwnBytes m 0 sampleStack 0xa0000000 ∧
    (sampleSealing 0xa0000000 0).mem 0xa0000000 = 1 ∧
    m₁.mem 0xa0000000 = 0 ∧
    takeTrap .generic sampleCrypto sampleKeys m (sampleSealing 0x90000000 0x4000) =
    some (out', m₂) ∧
    ¬ OwnBytes m 0 sampleStack 0x8000bfc0 ∧
    (sampleSealing 0x90000000 0x4000).mem 0x8000bfc0 = 1 ∧
    m₂.mem 0x8000bfc0 = 0 := by
  rcases sampleSession_enclave with ⟨m₀, m, hInit, hExec, hSample⟩
  rcases takeTrap_sealingKey .generic sampleCrypto sampleKeys
    (a := sampleSealing 0xa0000000 0) rfl hSample.cpu with
    ⟨out, hFirst⟩
  rcases takeTrap_sealingKey .generic sampleCrypto sampleKeys
    (a := sampleSealing 0x90000000 0x4000) rfl hSample.cpu
    with ⟨out', hSecond⟩
  refine ⟨m₀, m, out, _, out', _, hInit, hExec, hSample.isolated, hSample.cpu, hFirst, ?_, rfl, ?_,
    hSecond, ?_, rfl, ?_⟩
  · rw [hSample.own_iff]
    decide
  · have hKey : KeyBytes 0xa0000000 0xa0000000 := ⟨0, by decide, by decide⟩
    have hKdf : sampleCrypto.kdf [] sampleKeys.smPrivateKey (sealingInfo sampleEnv
        (m.arrive (sampleSealing 0xa0000000 0)).mem
        0 0
        ((m.arrive (sampleSealing 0xa0000000 0)).enclaves 0).hash) sealingKeySize =
        some (replicate sealingKeySize 0) := rfl
    rcases sealingKey_written hKdf hKey with ⟨signed, hMem⟩
    rcases mem_append.mp hMem with hMem | hMem
    · exact eq_of_mem_replicate hMem
    · exact eq_of_mem_replicate hMem
  · rw [hSample.own_iff]
    decide
  · have hAddr : infoAddr sampleEnv 0x4000 = 0x8000bfc0#64 := by
      decide
    have hHash : InRange (infoAddr sampleEnv 0x4000) ((m.enclaves 0).hash.take mdSize).length
        0x8000bfc0 := by
      refine ⟨0, ?_, hAddr.symm.trans (BitVec.add_zero _).symm⟩
      rw [hSample.hash]
      decide
    have hIdent : ¬ InRange (infoAddr sampleEnv 0x4000 + ofNat 64 mdSize)
        (0x4000 : Word).toNat 0x8000bfc0 := by
      rw [hAddr]
      rintro ⟨i, hi, hEq⟩
      have hNat := congrArg BitVec.toNat hEq
      simp [mdSize] at hi hNat
      omega
    have hKey : ¬ KeyBytes 0x90000000 0x8000bfc0 := by
      rintro ⟨i, hi, hEq⟩
      have hNat := congrArg BitVec.toNat hEq
      simp [sealingKeySize, signatureSize] at hi hNat
      omega
    have hMem :=
      sealingInfo_written (K := sampleCrypto) (m := m.arrive (sampleSealing 0x90000000 0x4000))
        sampleKeys 0 hHash hIdent hKey
    change _ ∈ (m.enclaves 0).hash at hMem
    rw [hSample.hash] at hMem
    exact eq_of_mem_replicate hMem

end Keystone
