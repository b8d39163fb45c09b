import Keystone.Sm.Confinement

/-
  The variables of the monitor as bytes of its memory.

  In the code the fields of `Machine` are static variables
  that lie in memory. One call reaches them from outside:
  `get_sealing_key` stores the input of the derivation, the
  key and its signature wherever its caller says. The steps
  of this module let these stores change the variables. As
  long as they spare them, the steps are those of `smStep`.

  Main declarations:
    * `rawTrap`, `rawStep`
    * `Placement.Spares`
    * `rawTrap_eq`
    * `lifecycle_invariant`
-/

----
-- Variables In Memory
----

namespace Keystone

open Function (update)
open ByteMemory

/- The static variables of the monitor. -/
structure Statics where
  pmp : PmpTable
  enclaves : Nat → Enclave
  cpus : Nat → CpuState
  smRegionId : Nat
  osRegionId : Nat

variable (a : Arrival) (L : Placement) (m : Machine)

def Machine.statics : Statics where
  pmp := m.pmp
  enclaves := m.enclaves
  cpus := m.cpus
  smRegionId := m.smRegionId
  osRegionId := m.osRegionId

def Machine.setStatics (s : Statics) : Machine :=
  { m with
    pmp := s.pmp
    enclaves := s.enclaves
    cpus := s.cpus
    smRegionId := s.smRegionId
    osRegionId := s.osRegionId }

/-
  What compiler and linker decide: the addresses that hold
  the variables, the bytes of their values, and the values
  that the monitor reads from memory. A variable that is out
  of reach keeps its value, and bytes that are no value of
  the variable's type are read as `none`.
-/
structure Placement where
  holds : Word → Bool
  bytes : Statics → Word → Byte
  read : Statics → Memory → Option Statics
  read_bytes : ∀ s mem,
    (∀ b, holds b = true → mem b = bytes s b) → read s mem = some s

/- Memory with the variables in their places. -/
def Placement.image (s : Statics) (mem : Memory) : Memory :=
  fun b => if L.holds b then L.bytes s b else mem b

/- The trap, on the memory that the monitor sees. -/
abbrev Arrival.seen : Arrival :=
  { a with mem := L.image m.statics a.mem }

variable (L : Placement) (P : Platform) (K : Crypto) (keys : Keys)

/-
  The trap as the code takes it. After the raw stores of a
  sealing key the monitor goes on with what the bytes of its
  variables say.
-/
def rawTrap (m : Machine) (a : Arrival) : Option (Outcome × Machine) := do
  let (out, m') ← takeTrap P K keys m (a.seen L m)
  if a.trap = .ecall sbiSmGetSealingKey then
    let s ← L.read m'.statics m'.mem
    return (out, m'.setStatics s)
  else return (out, m')

def rawStep (m : Machine) (a : Arrival) : Option Machine :=
  (rawTrap L P K keys m a).map Prod.snd

variable {L P K keys}

/- The raw stores of the trap hit no variable. -/
def Placement.Spares (L : Placement) (a : Arrival) : Prop :=
  a.trap = .ecall sbiSmGetSealingKey → ∀ b, L.holds b = true →
    ¬ InfoBytes a.env (a.regs.x regA2) b ∧ ¬ KeyBytes (a.regs.x regA0) b

----
-- Traps That Spare The Variables
----

variable {m m' : Machine} {a : Arrival} {out : Outcome}
variable {eid : Nat} {as : List Arrival}

/- A sealing call changes memory only, and there only the bytes it stores. -/
theorem takeTrap_sealing
    (hTrap : a.trap = .ecall sbiSmGetSealingKey)
    (hTake : takeTrap P K keys m a = some (out, m')) :
    m'.statics = m.statics ∧
    ∀ b, ¬ InfoBytes a.env (a.regs.x regA2) b →
      ¬ KeyBytes (a.regs.x regA0) b → m'.mem b = a.mem b := by
  cases hCpu : m.cpus a.hart with
  | mk isEnclave eid =>
    cases isEnclave with
    | false =>
      have hRefused : sbiProhibited (m.arrive a) a.hart sbiSmGetSealingKey = true := by
        have hArrived : (m.arrive a).cpus a.hart = ⟨false, eid⟩ := hCpu
        rw [sbiProhibited, hArrived, if_neg (by decide), if_pos (by decide)]
        rfl
      unfold takeTrap at hTake
      simp only [hTrap] at hTake
      rw [sbiEcallHandler, if_neg (by decide), if_pos hRefused] at hTake
      cases hTake
      exact ⟨rfl, fun _ _ _ => rfl⟩
    | true =>
      rcases takeTrap_sealingKey P K keys hTrap hCpu with ⟨out', hSealed⟩
      rw [hSealed] at hTake
      cases hTake
      refine ⟨?_, ?_⟩
      · rcases getSealingKey_memory K keys a.env (m.arrive a) (a.regs.x regA0)
          (a.regs.x regA1) (a.regs.x regA2) eid with ⟨mem, hMem⟩
        rw [hMem]
        rfl
      · intro b hInfo hKey
        exact getSealingKey_frame
          (S := fun b => InfoBytes a.env (a.regs.x regA2) b ∨ KeyBytes (a.regs.x regA0) b)
          (fun _ => .inl) (fun _ => .inr) b (not_or.mpr ⟨hInfo, hKey⟩)

/- A trap that spares the variables is a typed trap on the memory that the monitor sees. -/
theorem rawTrap_eq (hSpares : L.Spares a) :
    rawTrap L P K keys m a = takeTrap P K keys m (a.seen L m) := by
  unfold rawTrap
  cases hTake : takeTrap P K keys m (a.seen L m) with
  | none => rfl
  | some r =>
    rcases r with ⟨out, m'⟩
    by_cases hTrap : a.trap = .ecall sbiSmGetSealingKey
    · rcases takeTrap_sealing (a := a.seen L m) hTrap hTake with ⟨hSame, hFrame⟩
      have hRead : L.read m'.statics m'.mem = some m'.statics := by
        apply L.read_bytes
        intro b hHolds
        rcases hSpares hTrap b hHolds with ⟨hInfo, hKey⟩
        rw [hFrame b hInfo hKey, hSame]
        exact if_pos hHolds
      simp only [bind, Option.bind_some, if_pos hTrap, hRead]
      rfl
    · simp only [bind, Option.bind_some, if_neg hTrap]
      rfl

theorem rawStep_effect
    (hInv : RegionInv P m)
    (hSpares : L.Spares a)
    (hStep : rawStep L P K keys m a = some m') :
    ∃ out, rawTrap L P K keys m a = some (out, m') ∧ Effect P K m (a.seen L m) out m' := by
  rcases Option.map_eq_some_iff.mp hStep with ⟨⟨out, m₁⟩, hTake, rfl⟩
  refine ⟨out, hTake, ?_⟩
  rw [rawTrap_eq hSpares] at hTake
  exact takeTrap_effect hInv hTake

theorem lifeInv_rawStep
    (hInv : LifeInv P m)
    (hSpares : L.Spares a)
    (hStep : rawStep L P K keys m a = some m') :
    LifeInv P m' := by
  rcases rawStep_effect hInv.regions hSpares hStep with ⟨out, _, hEffect⟩
  exact lifeInv_effect hInv hEffect

theorem lifeInv_rawRun
    (hInv : LifeInv P m)
    (hSpares : Runs.Guarded (rawStep L P K keys) (fun _ a => L.Spares a) m as)
    (hRun : Runs.exec (rawStep L P K keys) m as = some m') :
    LifeInv P m' :=
  Runs.exec_invariant_of_guarded (fun _ _ _ hs hOk hStep => lifeInv_rawStep hs hOk hStep)
    hInv hSpares hRun

/- The state whose number is `w`. -/
def EnclaveState.ofCode (w : BitVec 32) : Option EnclaveState :=
  [invalid, destroying, allocated, fresh, stopped, running].find?
    fun state => BitVec.ofInt 32 state.code = w

theorem EnclaveState.ofCode_code (state : EnclaveState) :
    ofCode (BitVec.ofInt 32 state.code) = some state := by
  cases state <;> decide

/- The number of an enclave's state in four bytes, lowest byte first. -/
def stateBytes (state : EnclaveState) (i : Nat) : Byte :=
  (BitVec.ofInt 32 state.code >>> (8 * i)).setWidth 8

def readState (mem : Memory) (addr : Word) : Option EnclaveState :=
  EnclaveState.ofCode (mem (addr + 3#64) ++ mem (addr + 2#64) ++ mem (addr + 1#64) ++ mem addr)

theorem readState_stateBytes
    {mem : Memory} {addr : Word} {state : EnclaveState}
    (hBytes : ∀ i < 4, mem (addr + BitVec.ofNat 64 i) = stateBytes state i) :
    readState mem addr = some state := by
  have hFirst := hBytes 0 (by decide)
  rw [BitVec.add_zero] at hFirst
  have hWord : mem (addr + 3#64) ++ mem (addr + 2#64) ++ mem (addr + 1#64) ++ mem addr =
      BitVec.ofInt 32 state.code := by
    rw [hFirst, hBytes 1 (by decide), hBytes 2 (by decide), hBytes 3 (by decide)]
    cases state <;> decide
  rw [readState, hWord, EnclaveState.ofCode_code]

/- The field `state` of slot `eid` at `addr`, the other variables out of reach. -/
def slotState (eid : Nat) (addr : Word) : Placement where
  holds := fun b => decide ((b - addr).toNat < 4)
  bytes := fun s b => stateBytes (s.enclaves eid).state (b - addr).toNat
  read := fun s mem => (readState mem addr).map fun state =>
    { s with enclaves := update s.enclaves eid { s.enclaves eid with state := state } }
  read_bytes := by
    intro s mem hBytes
    have hState : readState mem addr = some (s.enclaves eid).state := by
      apply readState_stateBytes
      intro i hi
      have hOffset : (addr + BitVec.ofNat 64 i - addr).toNat = i := by
        bv_omega
      rw [hBytes _ (by rw [hOffset]; exact decide_eq_true hi), hOffset]
    rw [hState, Option.map_some, Function.update_eq_self_iff.mpr rfl]

/-
  The last four of the 192 bytes that the sealing call of
  hart 1 stores are those of the state of its enclave.
-/
def sampleOverwrite : Arrival := sampleSealing (0x80020010#64 - 188#64) 0

/- A monitor with the state of slot 0 at `0x80020010`. -/
def sampleRaw : Machine → Arrival → Option (Outcome × Machine) :=
  rawTrap (slotState 0 0x80020010) .generic sampleCrypto sampleKeys

def sampleRawStep : Machine → Arrival → Option Machine :=
  rawStep (slotState 0 0x80020010) .generic sampleCrypto sampleKeys

def sampleRawRun (as : List Arrival) : Option Machine :=
  sampleInit.bind fun m => Runs.exec sampleRawStep m as

end Keystone
