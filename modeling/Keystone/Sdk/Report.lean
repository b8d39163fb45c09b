import Keystone.Bootrom.Bootloader
import Keystone.Sm.Lifecycle
import Keystone.Sm.Measurement

/-
  The verifier of attestation reports, at the end of a chain from the boot ROM over the security
  monitor to the enclave.

  The monitor signs the first bytes of `struct report`, up to the end of the data; the verifier
  checks the first bytes of its own `struct report_t`. Both structures lay out the same fields in
  the same order, so every report that the monitor hands out is accepted, and the message that is
  checked determines the hash, the length and the data.
-/

----
-- The Verifier
----

namespace Keystone

open List (length_append length_replicate map_cons take_of_length_le)

/- `struct report_t`; the arrays have their declared sizes. -/
structure ReportT where
  enclaveHash : List Byte
  dataLen : Word
  data : List Byte
  enclaveSignature : List Byte
  smHash : List Byte
  smPublicKey : List Byte
  smSignature : List Byte
  devPublicKey : List Byte
  enclaveHash_length : enclaveHash.length = 64
  data_length : data.length = 1024
  enclaveSignature_length : enclaveSignature.length = 64
  smHash_length : smHash.length = 64
  smPublicKey_length : smPublicKey.length = 32
  smSignature_length : smSignature.length = 64
  devPublicKey_length : devPublicKey.length = 32

/- `sizeof(struct report_t)`. -/
def reportSize : Nat := 1352

variable (E : Ed25519) (r : ReportT) (bin : List Byte)

/- The array at an offset of a structure. -/
def fieldAt (offset size : Nat) : List Byte := (bin.drop offset).take size

theorem length_fieldAt
    {bin : List Byte}
    {offset size : Nat}
    (hBin : bin.length = reportSize)
    (hFits : offset + size ≤ reportSize) :
    (fieldAt bin offset size).length = size := by
  rw [fieldAt, List.length_take, List.length_drop]
  omega

/- `Report::fromBytes` copies the structure. -/
def fromBytes (hBin : bin.length = reportSize) : ReportT where
  enclaveHash := fieldAt bin 0 64
  dataLen := Bits.ofBytes (fieldAt bin 64 8)
  data := fieldAt bin 72 1024
  enclaveSignature := fieldAt bin 1096 64
  smHash := fieldAt bin 1160 64
  smPublicKey := fieldAt bin 1224 32
  smSignature := fieldAt bin 1256 64
  devPublicKey := fieldAt bin 1320 32
  enclaveHash_length := length_fieldAt hBin (by decide)
  data_length := length_fieldAt hBin (by decide)
  enclaveSignature_length := length_fieldAt hBin (by decide)
  smHash_length := length_fieldAt hBin (by decide)
  smPublicKey_length := length_fieldAt hBin (by decide)
  smSignature_length := length_fieldAt hBin (by decide)
  devPublicKey_length := length_fieldAt hBin (by decide)

namespace ReportT

/- The structure as it lies in memory. -/
def bytes : List Byte :=
  r.enclaveHash ++ wordBytes r.dataLen ++ r.data ++
    r.enclaveSignature ++ r.smHash ++ r.smPublicKey ++
    r.smSignature ++ r.devPublicKey

/- The bytes whose signature by the monitor is checked. -/
def enclaveMessage : List Byte := r.bytes.take (64#64 + 8#64 + r.dataLen).toNat

/- The bytes whose signature by the device is checked. -/
def smMessage : List Byte :=
  (r.smHash ++ r.smPublicKey ++ r.smSignature).take (64 + 32)

def checkSignaturesOnly (devPublicKey : List Byte) : Bool :=
  let smValid := E.verify r.smSignature r.smMessage devPublicKey
  let enclaveValid := E.verify r.enclaveSignature r.enclaveMessage r.smPublicKey
  smValid && enclaveValid

def verify
    (expectedEnclaveHash expectedSmHash devPublicKey : List Byte) : Bool :=
  let enclHashValid := decide (expectedEnclaveHash.take 64 = r.enclaveHash.take 64)
  let smHashValid := decide (expectedSmHash.take 64 = r.smHash.take 64)
  enclHashValid && smHashValid && r.checkSignaturesOnly E devPublicKey

end ReportT

variable {r r' : ReportT}

theorem enclaveMessage_eq (hLen : r.dataLen.toNat ≤ 1024) : r.enclaveMessage =
    r.enclaveHash ++ wordBytes r.dataLen ++ r.data.take r.dataLen.toNat := by
  have hNat : (64#64 + 8#64 + r.dataLen).toNat = 72 + r.dataLen.toNat := by
    bv_omega
  have hHead : (r.enclaveHash ++ wordBytes r.dataLen).length = 72 := by
    rw [length_append, r.enclaveHash_length, length_wordBytes]
  have hData : 72 + r.dataLen.toNat ≤ (r.enclaveHash ++ wordBytes r.dataLen ++ r.data).length := by
    rw [length_append, hHead, r.data_length]
    omega
  simp only [ReportT.enclaveMessage, ReportT.bytes, hNat]
  iterate 5 rw [List.take_append_of_le_length (by
      simp only [length_append] at hData ⊢
      omega)]
  rw [List.take_append, hHead, take_of_length_le (by omega), Nat.add_sub_cancel_left]

theorem enclaveMessage_inj (hLen : r.dataLen.toNat ≤ 1024) (hLen' : r'.dataLen.toNat ≤ 1024)
    (hMessage : r.enclaveMessage = r'.enclaveMessage) : r.enclaveHash = r'.enclaveHash ∧
    r.dataLen = r'.dataLen ∧ r.data.take r.dataLen.toNat = r'.data.take r'.dataLen.toNat := by
  rw [enclaveMessage_eq hLen, enclaveMessage_eq hLen'] at hMessage
  rcases List.append_inj hMessage (by
    simp only [length_append, length_wordBytes, r.enclaveHash_length, r'.enclaveHash_length]) with
    ⟨hHead, hData⟩
  rcases List.append_inj hHead (by
    rw [r.enclaveHash_length, r'.enclaveHash_length]) with
    ⟨hHash, hWord⟩
  exact ⟨hHash, wordBytes_inj hWord, hData⟩

----
-- From The Monitor To The Verifier
----

variable {keys : Keys} {data hash : List Byte} {size : Word} {old : Report}

/- The arrays of a report of the monitor have their declared sizes. -/
structure Report.Sized (r : Report) : Prop where
  hash : r.enclave.hash.length = 64
  data : r.enclave.data.length = 1024
  signature : r.enclave.signature.length = 64
  smHash : r.smHash.length = 64
  smPublicKey : r.smPublicKey.length = 32
  smSignature : r.smSignature.length = 64
  devPublicKey : r.devPublicKey.length = 32

variable {r : Report}

theorem Report.Sized.length_bytes (hSized : r.Sized) : r.bytes.length = reportSize := by
  simp only [Report.bytes, EnclaveReport.bytes, length_append, hSized.hash, hSized.data,
    hSized.signature, hSized.smHash, hSized.smPublicKey,
    hSized.smSignature, hSized.devPublicKey,
    length_wordBytes, reportSize]

theorem fieldAt_flatten (fields : List (List Byte)) : ∀ i field, fields[i]? = some field →
    fieldAt fields.flatten ((fields.map List.length).take i).sum field.length = field := by
  induction fields with
  | nil =>
    intro i field hField
    cases hField
  | cons first fields ih =>
    intro i field hField
    cases i with
    | zero =>
      cases hField
      simp [fieldAt]
    | succ i =>
      have hRest := ih i field hField
      rw [fieldAt] at hRest ⊢
      rw [List.flatten_cons, map_cons, List.take_succ_cons, List.sum_cons,
        ← List.drop_drop, List.drop_left, hRest]

/- The fields of `struct report` in order. -/
def Report.fields (r : Report) : List (List Byte) :=
  [r.enclave.hash, wordBytes r.enclave.dataLen, r.enclave.data, r.enclave.signature, r.smHash,
    r.smPublicKey, r.smSignature, r.devPublicKey]

/- The verifier finds in its structure what the monitor has put into its own. -/
structure SameReport (r : Report) (t : ReportT) : Prop where
  hash : t.enclaveHash = r.enclave.hash
  dataLen : t.dataLen = r.enclave.dataLen
  data : t.data = r.enclave.data
  signature : t.enclaveSignature = r.enclave.signature
  smHash : t.smHash = r.smHash
  smPublicKey : t.smPublicKey = r.smPublicKey
  smSignature : t.smSignature = r.smSignature
  devPublicKey : t.devPublicKey = r.devPublicKey

theorem Report.Sized.length_fields (hSized : r.Sized) : r.fields.map List.length =
    [64, 8, 1024, 64, 64, 32, 64, 32] := by
  simp only [Report.fields, map_cons, List.map_nil, hSized.hash, hSized.data, hSized.signature,
    hSized.smHash, hSized.smPublicKey, hSized.smSignature,
    hSized.devPublicKey, length_wordBytes]

theorem fromBytes_reportBytes (hSized : r.Sized) : SameReport r
    (fromBytes r.bytes hSized.length_bytes) := by
  have hBytes : r.bytes = r.fields.flatten := by
    simp [Report.bytes, EnclaveReport.bytes, Report.fields]
  have hField : ∀ i size field, r.fields[i]? = some field → field.length = size → fieldAt r.bytes
      ([64, 8, 1024, 64, 64, 32, 64, 32].take i).sum
      size = field := by
    rintro i size field hField rfl
    rw [hBytes, ← hSized.length_fields]
    exact fieldAt_flatten r.fields i field hField
  have hWord : fieldAt r.bytes 64 8 = wordBytes r.enclave.dataLen :=
    hField 1 8 _ rfl (length_wordBytes _)
  constructor
  · exact hField 0 64 _ rfl hSized.hash
  · simp only [fromBytes]
    rw [hWord]
    exact Bits.ofBytes_byteOf r.enclave.dataLen
  · exact hField 2 1024 _ rfl hSized.data
  · exact hField 3 64 _ rfl hSized.signature
  · exact hField 4 64 _ rfl hSized.smHash
  · exact hField 5 32 _ rfl hSized.smPublicKey
  · exact hField 6 64 _ rfl hSized.smSignature
  · exact hField 7 32 _ rfl hSized.devPublicKey

----
-- The Chain
----

open ByteMemory

/- Verification accepts exactly the signatures that were made with the matching private key over the
   same bytes. -/
structure Ed25519.Sound (E : Ed25519) (IsPair : List Byte → List Byte → Prop) : Prop where
  created : ∀ seed, IsPair (E.createKeypair seed).1 (E.createKeypair seed).2
  accepts : ∀ publicKey privateKey, IsPair publicKey privateKey → ∀ signature message,
        E.verify signature message publicKey = true ↔
          signature = E.sign message publicKey privateKey

variable {P : Platform} {K : Crypto} {E : Ed25519} {IsPair : List Byte → List Byte → Prop}
variable {dev : DeviceKey} {dram : Memory} {stack : List Byte} {env : Env} {m m' : Machine}

theorem attestEnclave_success {h eid : Nat} {reportPtr data : Word}
    (hAttest : attestEnclave P K keys env m h reportPtr data size eid = (.success, m')) :
    ∃ bytes, bytes.length = size.toNat ∧ size.toNat ≤ attestDataMaxlen ∧
    copyFromSm (m.mprv P env h) m.mem reportPtr true (attestReport K keys env.reportStack
      (m.enclaves eid).hash bytes size).bytes =
    (false, m'.mem) := by
  unfold attestEnclave at hAttest
  split at hAttest
  · cases hAttest
  rename_i hSize
  split at hAttest
  · cases hAttest
  split at hAttest
  · cases hAttest
  rename_i bytes hCopy
  rcases copyToSm_loads hCopy with ⟨src', hLoads⟩
  have hLength := hLoads.length_got
  simp only [List.length_nil, Nat.zero_add, Nat.add_zero] at hLength
  simp only at hAttest
  split at hAttest
  · cases hAttest
  · rename_i hLegal
    cases hAttest
    refine ⟨bytes, hLength, Nat.not_lt.mp hSize, ?_⟩
    exact Prod.ext (Bool.eq_false_iff.mpr hLegal) rfl

/- The keys of the monitor have their declared sizes. -/
structure Keys.Sized (keys : Keys) : Prop where
  smHash : keys.smHash.length = 64
  smSignature : keys.smSignature.length = 64
  smPublicKey : keys.smPublicKey.length = 32
  devPublicKey : keys.devPublicKey.length = 32

/- What the monitor takes over from the boot ROM. -/
structure BootedKeys (E : Ed25519) (dev : DeviceKey) (dram : Memory) (keys : Keys) : Prop where
  seed : ∃ seed, keys.smPublicKey = (E.createKeypair seed).1 ∧
        keys.smPrivateKey = (E.createKeypair seed).2
  smHash : keys.smHash = smMeasurement dram
  smSignature : keys.smSignature = E.sign (keys.smHash ++ keys.smPublicKey)
        dev.publicKey dev.secretKey
  devPublicKey : keys.devPublicKey = dev.publicKey

theorem smCopyKey_eq {header : SanctumHeader} (hHash : header.smHash.length = 64)
    (hSignature : header.smSignature.length = 64) (hPublic : header.smPublicKey.length = 32)
    (hPrivate : header.smSecretKey.length = 64) (hDev : header.devPublicKey.length = 32) :
    smCopyKey header = ⟨header.smHash, header.smSignature, header.smPublicKey, header.smSecretKey,
      header.devPublicKey⟩ := by
  simp only [smCopyKey, mdSize, signatureSize]
  rw [take_of_length_le hHash.le, take_of_length_le hSignature.le, take_of_length_le hPublic.le,
    take_of_length_le hPrivate.le,
    take_of_length_le hDev.le]

theorem smCopyKey_bootloader (E : Ed25519) (dev : DeviceKey) (dram : Memory) (stack : List Byte) :
    BootedKeys E dev dram (smCopyKey (bootloader E dev dram stack)) := by
  have hKeys := bootloader_smKeys E dev dram stack
  have hSignature := bootloader_smSignature E dev dram stack
  have hHash := bootloader_smHash E dev dram stack
  have hDev := bootloader_devPublicKey E dev dram stack
  generalize bootloader E dev dram stack = header at hKeys hSignature hHash hDev
  rw [Prod.ext_iff] at hKeys
  simp only at hKeys
  have hCopy : smCopyKey header = ⟨header.smHash, header.smSignature,
      header.smPublicKey, header.smSecretKey,
      header.devPublicKey⟩ := by
    apply smCopyKey_eq
    · rw [hHash, length_smMeasurement]
    · rw [hSignature, E.sign_length]
    · rw [hKeys.1, E.public_length]
    · rw [hKeys.2, E.private_length]
    · rw [hDev, dev.public_length]
  rw [hCopy]
  constructor
  · exact ⟨_, hKeys⟩
  · exact hHash
  · change header.smSignature = E.sign (header.smHash ++ header.smPublicKey)
          dev.publicKey dev.secretKey
    rw [hHash, ← hSignature]
  · exact hDev

theorem BootedKeys.sized (hBooted : BootedKeys E dev dram keys) : keys.Sized := by
  rcases hBooted.seed with ⟨seed, hPublic, _⟩
  constructor
  · rw [hBooted.smHash, length_smMeasurement]
  · rw [hBooted.smSignature, E.sign_length]
  · rw [hPublic, E.public_length]
  · rw [hBooted.devPublicKey, dev.public_length]

theorem attestReport_sized (K : Crypto) (size : Word) (hKeys : keys.Sized)
    (hOld : old.enclave.data.length = 1024) (hHash : hash.length = 64) (hData : data.length ≤ 1024)
    : (attestReport K keys old hash data size).Sized := by
  constructor
  · exact hHash
  · simp only [attestReport, overwrite, length_append, List.length_drop, hOld]
    omega
  · exact K.sign_length _ _ _
  · exact hKeys.smHash
  · exact hKeys.smPublicKey
  · exact hKeys.smSignature
  · exact hKeys.devPublicKey

theorem enclaveMessage_attestReport {t : ReportT}
    (hSame : SameReport (attestReport K keys old hash data size) t) (hSize : size.toNat ≤ 1024) :
    t.enclaveSignature = K.sign t.enclaveMessage keys.smPublicKey keys.smPrivateKey := by
  have hLen : t.dataLen = size := hSame.dataLen
  have hHash : t.enclaveHash = hash := hSame.hash
  have hData : t.data = overwrite old.enclave.data data := hSame.data
  have hHead : (hash ++ wordBytes size).length = 72 := by
    rw [length_append, ← hHash, t.enclaveHash_length, length_wordBytes]
  have hLength : 72 + size.toNat ≤ (hash ++ wordBytes size ++
      overwrite old.enclave.data data).length := by
    rw [length_append, hHead, ← hData, t.data_length]
    omega
  rw [enclaveMessage_eq (by rw [hLen]; exact hSize), hLen, hHash, hData, hSame.signature]
  have hSigned : mdSize + 8 + size.toNat = 72 + size.toNat := rfl
  simp only [attestReport, EnclaveReport.bytes, hSigned]
  rw [List.take_append_of_le_length hLength, List.take_append, hHead, take_of_length_le (by omega),
    Nat.add_sub_cancel_left]

/- The chain from the boot ROM to the verifier: every report that `attest_enclave` hands out is
   accepted, and a message that the verifier checks determines what it attests. -/
theorem attestation_chain (P : Platform) (K : Crypto) (E : Ed25519)
    (IsPair : List Byte → List Byte → Prop) (hSound : E.Sound IsPair)
    (hSign : ∀ d p k, K.sign d p k = E.sign d p k) (dev : DeviceKey)
    (hDev : IsPair dev.publicKey dev.secretKey) (dram : Memory) (stack : List Byte) (env : Env)
    (hStack : env.reportStack.enclave.data.length = 1024) (m m' : Machine) (h eid : Nat)
    (hHash : (m.enclaves eid).hash.length = 64) (reportPtr data size : Word)
    (hAttest : attestEnclave P K (smCopyKey (bootloader E dev dram stack)) env m h
      reportPtr data size eid =
      (.success, m')) :
    (∃ bin hBin, copyFromSm (m.mprv P env h) m.mem reportPtr true bin = (false, m'.mem) ∧
      (fromBytes bin hBin).verify E (m.enclaves eid).hash (bootloader E dev dram stack).smHash
      dev.publicKey = true) ∧
    ∀ r r' : ReportT, r.dataLen.toNat ≤ 1024 → r'.dataLen.toNat ≤ 1024 →
    r.enclaveMessage = r'.enclaveMessage → r.enclaveHash = r'.enclaveHash ∧
    r.dataLen = r'.dataLen ∧
    r.data.take r.dataLen.toNat = r'.data.take r'.dataLen.toNat := by
  constructor
  · have hBooted := smCopyKey_bootloader E dev dram stack
    generalize hKeys : smCopyKey (bootloader E dev dram stack) = keys at hAttest hBooted
    rcases attestEnclave_success hAttest with ⟨bytes, hLength, hSize, hCopy⟩
    have hData : bytes.length ≤ 1024 := by
      rw [hLength]
      exact hSize
    have hSized := attestReport_sized K size hBooted.sized hStack hHash hData
    have hSame := fromBytes_reportBytes hSized
    refine ⟨_, hSized.length_bytes, hCopy, ?_⟩
    generalize fromBytes (attestReport K keys env.reportStack
          (m.enclaves eid).hash bytes size).bytes
        hSized.length_bytes = t at hSame
    have hSmHash : t.smHash = smMeasurement dram := hSame.smHash.trans hBooted.smHash
    have hSmKey : t.smPublicKey = keys.smPublicKey := hSame.smPublicKey
    have hSmMessage : t.smMessage = keys.smHash ++ keys.smPublicKey := by
      have hTotal : (keys.smHash ++ keys.smPublicKey).length = 64 + 32 := by
        rw [length_append, hBooted.sized.smHash, hBooted.sized.smPublicKey]
      rw [ReportT.smMessage, hSmHash, ← hBooted.smHash, hSmKey, List.take_left' hTotal]
    have hSmValid : E.verify t.smSignature t.smMessage dev.publicKey =
        true := by
      apply (hSound.accepts _ _ hDev _ _).mpr
      rw [hSmMessage, ← hBooted.smSignature]
      exact hSame.smSignature
    have hEnclaveValid : E.verify t.enclaveSignature t.enclaveMessage t.smPublicKey = true := by
      rcases hBooted.seed with ⟨seed, hPublic, hPrivate⟩
      have hPair := hSound.created seed
      rw [← hPublic, ← hPrivate] at hPair
      rw [hSmKey]
      apply (hSound.accepts _ _ hPair _ _).mpr
      rw [← hSign]
      exact enclaveMessage_attestReport hSame hSize
    have hEnclaveHash : t.enclaveHash = (m.enclaves eid).hash := hSame.hash
    simp [ReportT.verify, ReportT.checkSignaturesOnly,
      hSmValid, hEnclaveValid, hEnclaveHash, hSmHash,
      bootloader_smHash]
  · intro r r' hLen hLen' hMessage
    exact enclaveMessage_inj hLen hLen' hMessage

/- The first entry grants everything below `2 ^ 55`. -/
def openBank : Riscv.PmpBank := fun _ => ⟨0x20000000000000, 0x0f⟩

def attestEnv : Env :=
  { sampleEnv with
    translate := fun _ _ _ => some 0x1000
    reportStack :=
      ⟨⟨[], 0, List.replicate 1024 0, []⟩, [], [], [], []⟩ }

/- A machine with a fresh enclave 0. -/
def attestMachine : Machine where
  pmp := PmpTable.empty
  enclaves := fun _ => { Enclave.initMetadata with state := .fresh }
  cpus := fun _ => ⟨true, 0⟩
  smRegionId := 0
  osRegionId := 1
  harts := fun h => { sampleBoot h with pmp := openBank }
  mem := fun _ => 0

theorem openBank_grants {a : Word} (hLt : a.toNat < 2 ^ 55) (access : Riscv.Access) :
    pmpGrants .generic openBank access a = true := by
  have hBit : (openBank 0).cfg.getLsbD access.bit = true := by
    cases access <;> decide
  have hFirst : Riscv.firstMatch 8 openBank a.toNat = some 0 := by
    apply Riscv.firstMatch_eq_some_iff.mpr
    refine ⟨by omega, ?_, by omega⟩
    have hTor : Riscv.AddrMatch.ofCfg (openBank 0).cfg = .tor := by
      decide
    have hAddr : (openBank 0).addr.toNat = 2 ^ 53 := by
      decide
    simp only [Riscv.matchesEntry, hTor, hAddr, if_true, decide_eq_true_eq]
    omega
  have hCount : Platform.generic.pmpNReg = 8 := rfl
  rw [pmpGrants, Riscv.allows, hCount, hFirst]
  simp only [hBit, Bool.and_true, decide_eq_true_eq]
  omega

/- The accesses of a hart that the PMP lets through. -/
def openMprv : Mprv where
  platform := .generic
  bank := openBank
  translate := fun _ _ _ => some 0x1000#64

theorem openMprv_copies (mem : Memory) (reportPtr : Word) (bin : List Byte)
    (hBin : bin.length = reportSize) : (copyFromSm openMprv mem reportPtr true bin).1 = false := by
  have hGranted : ∀ mem va bytes, bytes.length ≤ reportSize →
      mprvStore openMprv mem va bytes ≠ none := by
    intro mem va bytes hLength
    have hAll : pmpGrantsAll .generic openBank .write 0x1000#64 bytes.length = true := by
      simp only [pmpGrantsAll, List.all_eq_true, List.mem_range]
      intro i hi
      apply openBank_grants
      unfold reportSize at hLength
      bv_omega
    simp [mprvStore, openMprv, hAll]
  rcases copyFromSm_stores openMprv mem reportPtr true bin with ⟨_, _, hStores, _⟩
  have hEnd := Stores.no_fault hGranted hStores hBin.le rfl
  exact hEnd

theorem attestMachine_success (hKeys : keys.Sized) : ∃ m',
    attestEnclave .generic sampleCrypto keys attestEnv attestMachine 0 0x2000 0 8 0 =
    (.success, m') := by
  have hSized : (attestReport sampleCrypto keys attestEnv.reportStack
      (attestMachine.enclaves 0).hash (List.replicate 8 0) 8#64).Sized :=
    attestReport_sized sampleCrypto 8#64 hKeys length_replicate length_replicate (by decide)
  have hCopies := openMprv_copies attestMachine.mem 0x2000 _ hSized.length_bytes
  have hData : copyToSm openMprv attestMachine.mem true 0 (8 : Word).toNat =
      some (List.replicate 8 0) := by
    decide +kernel
  have hMprv : attestMachine.mprv .generic attestEnv 0 = openMprv := rfl
  have hChecks : (enclaveExists .generic attestMachine 0 && decide (EnclaveState.fresh.code ≤
      (attestMachine.enclaves 0).state.code)) = true := by
    decide
  rw [attestEnclave, hMprv, if_neg (by decide), hChecks, hData]
  simp only [Bool.not_true, Bool.false_eq_true, if_false]
  refine ⟨_, if_neg ?_⟩
  rw [Bool.not_eq_true]
  exact hCopies

theorem attestation_chain_sample : ∃ m', attestEnclave .generic sampleCrypto
    (smCopyKey (bootloader sampleSigner (sampleDevice 1) (fun _ => 0) []))
    attestEnv attestMachine 0 0x2000 0 8 0 =
    (.success, m') ∧
    ∃ bin hBin, (fromBytes bin hBin).verify sampleSigner (attestMachine.enclaves 0).hash
    (bootloader sampleSigner (sampleDevice 1) (fun _ => 0) []).smHash
    (sampleDevice 1).publicKey = true := by
  have hBooted := smCopyKey_bootloader sampleSigner (sampleDevice 1) (fun _ => 0) []
  rcases attestMachine_success hBooted.sized with ⟨m', hAttest⟩
  have hSound : sampleSigner.Sound fun _ _ => True :=
    ⟨fun _ => trivial, fun _ _ _ _ _ => decide_eq_true_iff⟩
  rcases (attestation_chain .generic sampleCrypto sampleSigner (fun _ _ => True) hSound
    (fun _ _ _ => rfl) (sampleDevice 1) trivial (fun _ => 0)
    [] attestEnv length_replicate attestMachine m' 0 0
    length_replicate 0x2000 0 8 hAttest).1 with
    ⟨bin, hBin, _, hVerify⟩
  exact ⟨m', hAttest, bin, hBin, hVerify⟩

end Keystone
