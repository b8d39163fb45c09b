import Keystone.Sm.Enclave
import Keystone.Sm.Mprv

/-
  The calls that serve a running enclave without changing its state: attestation, sealing keys,
  plugins and randomness.

  Attestation and the multimem plugin copy through `MPRV`. `get_sealing_key` uses the pointers of
  the caller directly, and `sm_derive_sealing_key` builds the key derivation's input in a
  variable-length array on the stack.
-/

----
-- Keys And Reports
----

namespace Keystone

/- What `sm_copy_key` took over from the root of trust. -/
structure Keys where
  smHash : List Byte
  smSignature : List Byte
  smPublicKey : List Byte
  smPrivateKey : List Byte
  devPublicKey : List Byte

/- Sizes in bytes. -/
def attestDataMaxlen : Nat := 1024
def mdSize : Nat := 64
def sealingKeySize : Nat := 128
def signatureSize : Nat := 64

/- `struct enclave_report`. -/
structure EnclaveReport where
  hash : List Byte
  dataLen : Word
  data : List Byte
  signature : List Byte

/- `struct report`, with `struct sm_report` in place. -/
structure Report where
  enclave : EnclaveReport
  smHash : List Byte
  smPublicKey : List Byte
  smSignature : List Byte
  devPublicKey : List Byte

/- The report as it lies in memory. -/
def EnclaveReport.bytes (r : EnclaveReport) : List Byte :=
  r.hash ++ wordBytes r.dataLen ++ r.data ++ r.signature

def Report.bytes (r : Report) : List Byte :=
  r.enclave.bytes ++ r.smHash ++ r.smPublicKey ++ r.smSignature ++ r.devPublicKey

/- What a call finds besides the machine: the outcome of the `MPRV` copy of the host's create
   arguments, the caller's translation, the previous contents of the stack where the report is
   built, the stack pointer and the random number. -/
structure Env where
  createArgs : Option CreateArgs
  translate : Translation
  reportStack : Report
  sp : Word
  random : Word

----
-- Services
----

open ByteMemory

variable (P : Platform) (K : Crypto) (keys : Keys)

/- The `MPRV` accesses of hart `h`. -/
def Machine.mprv (m : Machine) (env : Env) (h : Nat) : Mprv where
  platform := P
  bank := (m.harts h).pmp
  translate := env.translate

/- Writing `data` into an array that is longer keeps its tail. -/
def overwrite (old data : List Byte) : List Byte := data ++ old.drop data.length

/- The report, once the data has been copied in. -/
def attestReport (stack : Report) (hash data : List Byte)
    (size : Word) : Report :=
  let enclave :=
    { stack.enclave with
      hash := hash
      dataLen := size
      data := overwrite stack.enclave.data data }
  let signed := enclave.bytes.take (mdSize + 8 + size.toNat)
  { enclave :=
      { enclave with signature := K.sign signed keys.smPublicKey keys.smPrivateKey }
    smHash := keys.smHash
    smPublicKey := keys.smPublicKey
    smSignature := keys.smSignature
    devPublicKey := keys.devPublicKey }

variable (env : Env) (m : Machine) (mem : Memory)

def attestEnclave (h : Nat)
    (reportPtr data size : Word) (eid : Nat) : SmError × Machine :=
  if attestDataMaxlen < size.toNat then
    (.illegalArgument, m)
  else if !(enclaveExists P m eid && decide (EnclaveState.fresh.code ≤
        (m.enclaves eid).state.code)) then
    (.notInitialized, m)
  else
    match copyToSm (m.mprv P env h) m.mem true data size.toNat with
    | none => (.notAccessible, m)
    | some bytes =>
      let report := attestReport K keys env.reportStack (m.enclaves eid).hash bytes size
      let (illegal, mem) := copyFromSm (m.mprv P env h) m.mem reportPtr true report.bytes
      if illegal then (.illegalArgument, m.setMem mem)
      else (.success, m.setMem mem)

/- The address of `info[MDSIZE + key_ident_size]`: the stack stays aligned to 16 bytes. -/
def infoAddr (keyIdentSize : Word) : Word :=
  env.sp - ((64#64 + keyIdentSize + 15#64) &&& ~~~15#64)

/- The two `sbi_memcpy` calls that fill `info`. -/
def fillInfo (keyIdent keyIdentSize : Word)
    (enclaveHash : List Byte) : Memory :=
  let info := infoAddr env keyIdentSize
  memcpy (storeBytes mem info (enclaveHash.take mdSize)) (info + BitVec.ofNat 64 mdSize) keyIdent
    keyIdentSize.toNat

/- `sm_derive_sealing_key`. The key is stored through the pointer it was given; `none` is a nonzero
   return. -/
def smDeriveSealingKey
    (key keyIdent keyIdentSize : Word) (enclaveHash : List Byte) : Bool × Memory :=
  let mem := fillInfo env mem keyIdent keyIdentSize enclaveHash
  let info := readBytes mem (infoAddr env keyIdentSize) (64#64 + keyIdentSize).toNat
  match K.kdf [] keys.smPrivateKey info sealingKeySize with
  | none => (false, mem)
  | some okm => (true, storeBytes mem key okm)

def getSealingKey
    (sealingKey keyIdent keyIdentSize : Word) (eid : Nat) : SmError × Machine :=
  match smDeriveSealingKey K keys env m.mem sealingKey
      keyIdent keyIdentSize (m.enclaves eid).hash with
  | (false, mem) => (.unknownError, m.setMem mem)
  | (true, mem) =>
    let signature :=
      K.sign (readBytes mem sealingKey sealingKeySize) keys.smPublicKey keys.smPrivateKey
    (.success, m.setMem (storeBytes mem (sealingKey + BitVec.ofNat 64 sealingKeySize) signature))

/- `copy_word_from_sm` of a single word. -/
def copyOneWord (v : Mprv) (mem : Memory) (dst value : Word) : Word × Memory :=
  let s := copyWordFromSm v ⟨false, mem, dst, wordBytes value⟩
  (if s.fault then -1 else 0, s.mem)

/- The getters of `multimem.c` for a region of type `REGION_OTHER`. -/
def multimemGetOther (h eid : Nat)
    (get : PmpTable → Nat → Word) (out : Word) : Word × Machine :=
  match getEnclaveRegionIndex P m eid .other with
  | none => (-1, m)
  | some memid =>
    let value := get m.pmp ((m.enclaves eid).regions memid).pmpRid
    let (ret, mem) := copyOneWord (m.mprv P env h) m.mem out value
    (ret, m.setMem mem)

def doSbiMultimem (h eid : Nat)
    (callId arg0 : Word) : Word × Machine :=
  if callId = multimemGetOtherRegionSize then
    multimemGetOther P env m h eid pmpRegionGetSize arg0
  else if callId = multimemGetOtherRegionAddr then
    multimemGetOther P env m h eid pmpRegionGetAddr arg0
  else (0, m)

def callPlugin (h eid : Nat)
    (pluginId callId arg0 : Word) : Word × Machine :=
  if P.pluginEnableMultimem && decide (pluginId = pluginIdMultimem) then
    doSbiMultimem P env m h eid callId arg0
  else (SmError.notImplemented.code, m)

end Keystone
