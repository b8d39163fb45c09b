import Keystone.Crypto.Sha3
import Keystone.Sm.Services

/-
  The boot ROM: measuring the security monitor, deriving its key pair and endorsing it with the
  device key.

  The seed of the monitor's key pair is a hash of the device secret and the monitor's measurement,
  and the device secret is erased at the end. Both take the size of what a pointer to the array
  points to, which is one byte: the hash covers one byte of each input and one byte is erased.
-/

----
-- Boot
----

namespace Keystone

open List (length_append replicate)
open ByteMemory

/- The signature scheme: key pairs as public and private key, signatures of a message under both
   keys. -/
structure Ed25519 where
  createKeypair : List Byte → List Byte × List Byte
  sign : List Byte → List Byte → List Byte → List Byte
  verify : List Byte → List Byte → List Byte → Bool
  public_length : ∀ seed, (createKeypair seed).1.length = 32
  private_length : ∀ seed, (createKeypair seed).2.length = 64
  sign_length : ∀ m p k, (sign m p k).length = 64

/- The device key pair that the boot ROM loads. -/
structure DeviceKey where
  secretKey : List Byte
  publicKey : List Byte
  secret_length : secretKey.length = 64
  public_length : publicKey.length = 32

/- The header fields in DRAM, behind the image. -/
structure SanctumHeader where
  devPublicKey : List Byte
  devSecretKey : List Byte
  smHash : List Byte
  smPublicKey : List Byte
  smSecretKey : List Byte
  smSignature : List Byte

def dramBase : Word := 0x80000000
def sanctumSmSize : Nat := 0x1ff000

/- `sizeof(*a)` of an array `a` of bytes. -/
def sizeofElement : Nat := 1

/- The bytes that fill the scratchpad for want of an entropy source. -/
def randomByte (i : Nat) : Byte := 0xac + (0xdd ^^^ BitVec.ofNat 8 i)

/- `sanctum_sm_hash`. -/
def smMeasurement (dram : Memory) : List Byte :=
  sha3Final (sha3Update (sha3Init 64) (readBytes dram dramBase sanctumSmSize))

variable (devSecretKey : List Byte) (smHash : List Byte) (header : SanctumHeader)

/- The data of the updates that combine the device secret and the measurement. -/
def smKeySeedUpdates : List (List Byte) :=
  [devSecretKey.take sizeofElement, smHash.take sizeofElement]

/- Their digest, before it is cut to 32 bytes. -/
def smKeySeed : List Byte :=
  sha3Final ((smKeySeedUpdates devSecretKey smHash).foldl sha3Update (sha3Init 64))

def bootloader (E : Ed25519) (dev : DeviceKey) (dram : Memory)
    (stack : List Byte) : SanctumHeader :=
  let scratchpad := overwrite stack ((List.range 32).map randomByte)
  let devSecretKey := dev.secretKey
  let devPublicKey := dev.publicKey
  let smHash := smMeasurement dram
  let scratchpad := overwrite scratchpad (smKeySeed devSecretKey smHash)
  let smKeys := E.createKeypair (scratchpad.take 32)
  -- endorse the monitor: (H_SM, PK_SM) under the device key
  let scratchpad := overwrite scratchpad (smHash.take 64 ++ smKeys.1.take 32)
  let smSignature :=
    E.sign (scratchpad.take (64 + 32)) devPublicKey devSecretKey
  -- erase SK_D
  let devSecretKey := overwrite devSecretKey (replicate sizeofElement 0)
  { devPublicKey := devPublicKey
    devSecretKey := devSecretKey
    smHash := smHash
    smPublicKey := smKeys.1
    smSecretKey := smKeys.2
    smSignature := smSignature }

/- `sm_copy_key` of the generic platform. -/
def smCopyKey : Keys where
  smHash := header.smHash.take mdSize
  smSignature := header.smSignature.take signatureSize
  smPublicKey := header.smPublicKey.take 32
  smPrivateKey := header.smSecretKey.take 64
  devPublicKey := header.devPublicKey.take 32

variable (E : Ed25519) (dev : DeviceKey) (dram : Memory) (stack : List Byte)

theorem take_overwrite {old data : List Byte} {n : Nat} (hLe : n ≤ data.length) :
    (overwrite old data).take n = data.take n := by
  rw [overwrite, List.take_append_of_le_length hLe]

theorem length_smMeasurement : (smMeasurement dram).length = 64 := length_sha3 _ 64

theorem bootloader_smHash : (bootloader E dev dram stack).smHash = smMeasurement dram := by
  simp only [bootloader]

theorem bootloader_devPublicKey : (bootloader E dev dram stack).devPublicKey = dev.publicKey := by
  simp only [bootloader]

/- The string that the seed is the digest of. -/
def smKeySeedMessage : List Byte :=
  (smKeySeedUpdates devSecretKey smHash).flatten

theorem smKeySeed_eq : smKeySeed devSecretKey smHash =
    sha3 (smKeySeedMessage devSecretKey smHash) 64 :=
  sha3_of_updates _ 64

theorem bootloader_smKeys : ((bootloader E dev dram stack).smPublicKey,
      (bootloader E dev dram stack).smSecretKey) =
    E.createKeypair ((smKeySeed dev.secretKey (smMeasurement dram)).take 32) := by
  have hLength : (smKeySeed dev.secretKey (smMeasurement dram)).length = 64 := by
    rw [smKeySeed_eq, length_sha3]
  simp only [bootloader]
  rw [take_overwrite (by omega)]

theorem bootloader_smSignature : (bootloader E dev dram stack).smSignature = E.sign
    (smMeasurement dram ++ (bootloader E dev dram stack).smPublicKey)
    dev.publicKey dev.secretKey := by
  have hHash : (smMeasurement dram).take 64 = smMeasurement dram :=
    List.take_of_length_le (length_smMeasurement dram).le
  have hKey : ∀ seed, (E.createKeypair seed).1.take 32 = (E.createKeypair seed).1 :=
    fun seed => List.take_of_length_le (E.public_length seed).le
  have hTake : ∀ seed, (smMeasurement dram ++ (E.createKeypair seed).1).take (64 + 32) =
      smMeasurement dram ++ (E.createKeypair seed).1 := by
    intro seed
    apply List.take_of_length_le
    rw [length_append, length_smMeasurement, E.public_length]
  simp only [bootloader, hHash, hKey]
  rw [take_overwrite (by
    rw [length_append, length_smMeasurement, E.public_length]), hTake]

----
-- Keys And Secrets
----

variable {dev dev' : DeviceKey} {dram dram' : Memory}

/- The seed is bound to the whole device secret and the whole measurement. -/
def BindsSeed (dev : DeviceKey) (dram : Memory) : Prop :=
  smKeySeedMessage dev.secretKey (smMeasurement dram) = dev.secretKey ++ smMeasurement dram

/- Two boots derive the monitor's keys from one seed. -/
def SameSeed (dev dev' : DeviceKey) (dram dram' : Memory) : Prop :=
  (smKeySeed dev.secretKey (smMeasurement dram)).take 32 =
    (smKeySeed dev'.secretKey (smMeasurement dram')).take 32

theorem length_smKeySeedMessage :
    (smKeySeedMessage devSecretKey smHash).length ≤ 2 := by
  simp only [smKeySeedMessage, smKeySeedUpdates, sizeofElement, List.flatten_cons, List.flatten_nil,
    List.append_nil, length_append, List.length_take]
  omega

/- Whatever the device secret and the image are, the seed message is not the secret followed by the
   measurement: it consists of their first bytes. Boots that agree in those two bytes derive the
   same keys. -/
theorem smKeySeed_never_binds (dev : DeviceKey) (dram : Memory) : ¬ BindsSeed dev dram ∧
    smKeySeedMessage dev.secretKey (smMeasurement dram) = dev.secretKey.take 1 ++
    (smMeasurement dram).take 1 ∧
    ∀ (dev' : DeviceKey) (dram' : Memory), dev'.secretKey.take 1 = dev.secretKey.take 1 →
    (smMeasurement dram').take 1 = (smMeasurement dram).take 1 →
    SameSeed dev dev' dram dram' := by
  have hMessage : ∀ secretKey smHash, smKeySeedMessage secretKey smHash =
      secretKey.take 1 ++ smHash.take 1 := by
    intro secretKey smHash
    simp [smKeySeedMessage, smKeySeedUpdates, sizeofElement]
  refine ⟨?_, hMessage _ _, ?_⟩
  · intro hBinds
    have hShort := length_smKeySeedMessage dev.secretKey (smMeasurement dram)
    rw [hBinds, length_append, dev.secret_length, length_smMeasurement] at hShort
    omega
  · intro dev' dram' hSecret hHash
    rw [SameSeed, smKeySeed_eq, smKeySeed_eq, hMessage, hMessage, hSecret, hHash]

/- A device secret of zeros but for its last byte. -/
def sampleDevice (last : Byte) : DeviceKey where
  secretKey := replicate 63 0 ++ [last]
  publicKey := replicate 32 0
  secret_length := by simp
  public_length := by simp

/- Two devices whose secrets differ derive the same monitor keys for every image. -/
theorem smKeySeed_shared_by_two_devices : (sampleDevice 1).secretKey ≠ (sampleDevice 2).secretKey ∧
    ∀ dram, ¬ BindsSeed (sampleDevice 1) dram ∧ SameSeed (sampleDevice 1) (sampleDevice 2) dram
    dram := by
  refine ⟨by decide, ?_⟩
  intro dram
  constructor
  · intro hBinds
    have hShort := length_smKeySeedMessage (sampleDevice 1).secretKey (smMeasurement dram)
    rw [hBinds, length_append, (sampleDevice 1).secret_length, length_smMeasurement] at hShort
    omega
  · rfl

variable {E : Ed25519} {stack stack' : List Byte}

/- No byte of the device secret is left. -/
def SecretErased : Prop := ∀ b ∈ header.devSecretKey, b = 0

/- Two headers agree on everything but the device secret. -/
def SameButSecret (header header' : SanctumHeader) : Prop :=
  header.devPublicKey = header'.devPublicKey ∧ header.smHash = header'.smHash ∧
    header.smPublicKey = header'.smPublicKey ∧
    header.smSecretKey = header'.smSecretKey ∧
    header.smSignature = header'.smSignature

theorem bootloader_devSecretKey (E : Ed25519) (dev : DeviceKey) (dram : Memory)
    (stack : List Byte) :
    (bootloader E dev dram stack).devSecretKey = 0 :: dev.secretKey.drop 1 := rfl

theorem header_eq_iff {header header' : SanctumHeader} (hSame : SameButSecret header header') :
    header = header' ↔ header.devSecretKey = header'.devSecretKey := by
  rcases header with ⟨a, b, c, d, e, f⟩
  rcases header' with ⟨a', b', c', d', e', f'⟩
  rcases hSame with ⟨hA, hC, hD, hE, hF⟩
  subst hA hC hD hE hF
  simp

/- The device secret is erased exactly if it was zero but for its first byte. Boots that differ in
   the secret only leave the same header exactly if the secrets agree behind the first byte. -/
theorem secretErased_iff (E : Ed25519) (dev : DeviceKey) (dram : Memory) (stack : List Byte) :
    (SecretErased (bootloader E dev dram stack) ↔ ∀ b ∈ dev.secretKey.drop 1, b = 0) ∧
    ∀ (dev' : DeviceKey) (dram' : Memory) (stack' : List Byte),
    SameButSecret (bootloader E dev dram stack) (bootloader E dev' dram' stack') →
    (bootloader E dev dram stack = bootloader E dev' dram' stack' ↔ dev.secretKey.drop 1 =
      dev'.secretKey.drop 1) := by
  constructor
  · rw [SecretErased, bootloader_devSecretKey]
    simp
  · intro dev' dram' stack' hSame
    rw [header_eq_iff hSame, bootloader_devSecretKey, bootloader_devSecretKey]
    simp

/- A scheme with one key pair and one signature. -/
def sampleSigner : Ed25519 where
  createKeypair := fun _ => (replicate 32 0, replicate 64 0)
  sign := fun _ _ _ => replicate 64 0
  verify := fun signature _ _ => decide (signature = replicate 64 0)
  public_length := by simp
  private_length := by simp
  sign_length := by simp

/- The last byte of the secret is still there after boot. -/
theorem secretErased_fails_on_last_byte : (bootloader sampleSigner (sampleDevice 1) (fun _ => 0)
      []).devSecretKey.getLast? = some 1 ∧
    ¬ SecretErased (bootloader sampleSigner (sampleDevice 1) (fun _ => 0) []) := by
  refine ⟨rfl, ?_⟩
  intro hErased
  have hMem : (1 : Byte) ∈ (bootloader sampleSigner (sampleDevice 1)
          (fun _ => 0) []).devSecretKey := by
    rw [bootloader_devSecretKey]
    decide
  exact absurd (hErased 1 hMem) (by decide)

end Keystone
