import Keystone.Sdk.Report

/-
  Reports as JSON.

  `stringfy` writes every array of a report in hexadecimal and `fromJson` reads it back. The number
  of data bytes that are read back is taken from the text and never compared with the size of the
  array, and neither is the length of the message that a verification reads. An exception leaves a
  report of which some arrays are new; its length is new as soon as the data is decoded.

  Main declarations:
    * `hexToBytes_bytesToHex`
    * `fromJson`
    * `fromJson_stringfy`
    * `VerifiesInside`, `ParsesInside`
    * `malformed_inBounds_iff`
-/

----
-- Hexadecimal
----

namespace Keystone

open List (length_replicate map_cons replicate)

def hexDigit (n : Nat) : Char := if n < 10 then Char.ofNat (48 + n) else Char.ofNat (87 + n)

def hexVal (c : Char) : Option Nat :=
  if '0' ≤ c ∧ c ≤ '9' then some (c.toNat - 48)
  else if 'a' ≤ c ∧ c ≤ 'f' then some (c.toNat - 87)
  else if 'A' ≤ c ∧ c ≤ 'F' then some (c.toNat - 55)
  else none

/- A number written with `std::hex` in two places. -/
def byteHex (b : Byte) : List Char := [hexDigit (b.toNat / 16), hexDigit (b.toNat % 16)]

def bytesToHex (bytes : List Byte) : List Char := bytes.flatMap byteHex

/- `isspace`. -/
def isSpace (c : Char) : Bool := c.isWhitespace || c == '\x0b' || c == '\x0c'

/- The number that `std::hex` extracts, zero if there is none: blanks are skipped, a sign may stand
   in front, and the digits end at the first other character. -/
def hexValue (s : List Char) : Byte :=
  let digits (ds : List Char) : Byte :=
    BitVec.ofNat 8 ((ds.map hexVal |>.takeWhile Option.isSome).foldl
      (fun acc d => 16 * acc + d.getD 0) 0)
  match s.dropWhile isSpace with
  | '-' :: ds => -(digits ds)
  | '+' :: ds => digits ds
  | ds => digits ds

/- The bytes that `HexToBytes` stores and whether it returns. The rest of the string is `none` when
   the position has passed its end, where `substr` throws. -/
def hexToBytes : Nat → Option (List Char) → List Byte × Bool
  | 0, _ => ([], true)
  | _ + 1, none => ([], false)
  | len + 1, some s =>
    let (bytes, returns) := hexToBytes len (if 2 ≤ s.length then some (s.drop 2) else none)
    (hexValue (s.take 2) :: bytes, returns)

theorem hexValue_byteHex (b : Byte) : hexValue (byteHex b) = b := by
  have hAll : ∀ n < 256, hexValue (byteHex (BitVec.ofNat 8 n)) = BitVec.ofNat 8 n := by
    decide +kernel
  simpa using hAll b.toNat b.isLt

theorem hexToBytes_bytesToHex (bytes : List Byte) :
    hexToBytes bytes.length (some (bytesToHex bytes)) = (bytes, true) := by
  induction bytes with
  | nil => rfl
  | cons b bytes ih =>
    have hHex : bytesToHex (b :: bytes) = byteHex b ++ bytesToHex bytes := List.flatMap_cons
    have hTwo : 2 ≤ (bytesToHex (b :: bytes)).length := by simp [hHex, byteHex]
    rw [List.length_cons, hexToBytes, if_pos hTwo, hHex,
      List.drop_left' (show (byteHex b).length = 2 from rfl), ih,
      List.take_left' (show (byteHex b).length = 2 from rfl), hexValue_byteHex]

theorem hexToBytes_count (len : Nat) (s : List Char) :
    (hexToBytes len (some s)).1.length = min len (s.length / 2 + 1) ∧
    ((hexToBytes len (some s)).2 = true ↔ len ≤ s.length / 2 + 1) := by
  induction len generalizing s with
  | zero => simp [hexToBytes]
  | succ len ih =>
    by_cases hTwo : 2 ≤ s.length
    · have hRest := ih (s.drop 2)
      rw [List.length_drop] at hRest
      simp only [hexToBytes, if_pos hTwo, List.length_cons, hRest.1, hRest.2]
      omega
    · cases len with
      | zero => simp [hexToBytes]
      | succ len =>
        have hHalf : s.length / 2 = 0 := by omega
        simp [hexToBytes, if_neg hTwo, hHalf]

----
-- Reading And Writing Reports
----

/- The strings of a report in JSON, and the `int` that `int_value` gives for `datalen`. -/
structure ReportJson where
  devicePubkey : List Char
  smHash : List Char
  smPubkey : List Char
  smSignature : List Char
  enclaveHash : List Char
  datalen : BitVec 32
  data : List Char
  signature : List Char

/- An array after bytes were stored from its start. -/
def fill (old new : List Byte) : List Byte := (overwrite old new).take old.length

theorem length_fill (old new : List Byte) : (fill old new).length = old.length := by
  simp only [fill, overwrite, List.length_take, List.length_append, List.length_drop]
  omega

theorem take_fill {old new : List Byte} (hLen : new.length ≤ old.length) :
    (fill old new).take new.length = new := by
  rw [fill, List.take_take, Nat.min_eq_left hLen, take_overwrite (le_rfl), List.take_length]

theorem fill_eq {old new : List Byte} (hLen : new.length = old.length) : fill old new = new := by
  have hTake := take_fill (Nat.le_of_eq hLen)
  rwa [hLen, ← length_fill old new, List.take_length] at hTake

/- A field: the size of its array, the number of bytes that are decoded, the string, and the report
   after the bytes were stored. -/
structure HexField where
  size : Nat
  len : Nat
  hexstr : List Char
  store : ReportT → List Byte → ReportT

def HexField.decode (f : HexField) : List Byte × Bool := hexToBytes f.len (some f.hexstr)

namespace ReportJson

def dataLen (j : ReportJson) : Word := j.datalen.signExtend 64

def devicePubkeyField (j : ReportJson) : HexField where
  size := 32
  len := 32
  hexstr := j.devicePubkey
  store := fun r bytes =>
    { r with
      devPublicKey := fill r.devPublicKey bytes
      devPublicKey_length := (length_fill _ _).trans r.devPublicKey_length }

def smHashField (j : ReportJson) : HexField where
  size := 64
  len := 64
  hexstr := j.smHash
  store := fun r bytes =>
    { r with
      smHash := fill r.smHash bytes
      smHash_length := (length_fill _ _).trans r.smHash_length }

def smPubkeyField (j : ReportJson) : HexField where
  size := 32
  len := 32
  hexstr := j.smPubkey
  store := fun r bytes =>
    { r with
      smPublicKey := fill r.smPublicKey bytes
      smPublicKey_length := (length_fill _ _).trans r.smPublicKey_length }

def smSignatureField (j : ReportJson) : HexField where
  size := 64
  len := 64
  hexstr := j.smSignature
  store := fun r bytes =>
    { r with
      smSignature := fill r.smSignature bytes
      smSignature_length := (length_fill _ _).trans r.smSignature_length }

def enclaveHashField (j : ReportJson) : HexField where
  size := 64
  len := 64
  hexstr := j.enclaveHash
  store := fun r bytes =>
    { r with
      enclaveHash := fill r.enclaveHash bytes
      enclaveHash_length := (length_fill _ _).trans r.enclaveHash_length }

/- `data_len` is assigned before the data is decoded, and stays if that throws. -/
def dataField (j : ReportJson) : HexField where
  size := 1024
  len := j.dataLen.toNat
  hexstr := j.data
  store := fun r bytes =>
    { r with
      dataLen := j.dataLen
      data := fill r.data bytes
      data_length := (length_fill _ _).trans r.data_length }

def signatureField (j : ReportJson) : HexField where
  size := 64
  len := 64
  hexstr := j.signature
  store := fun r bytes =>
    { r with
      enclaveSignature := fill r.enclaveSignature bytes
      enclaveSignature_length := (length_fill _ _).trans r.enclaveSignature_length }

/- The arrays that `fromJson` fills before it looks at the length. -/
def headFields (j : ReportJson) : List HexField :=
  [j.devicePubkeyField, j.smHashField, j.smPubkeyField, j.smSignatureField, j.enclaveHashField]

/- The arrays in the order in which `fromJson` fills them. -/
def fields (j : ReportJson) : List HexField := j.headFields ++ [j.dataField, j.signatureField]

end ReportJson

/- The report after the arrays were filled up to the first exception, and whether there was none.
   There is no such report if bytes are stored behind an array. -/
def storeFields (r : ReportT) : List HexField → Option (ReportT × Bool)
  | [] => some (r, true)
  | f :: fs =>
    let (bytes, returns) := f.decode
    if f.size < bytes.length then none
    else if returns then storeFields (f.store r bytes) fs
    else some (f.store r bytes, false)

def fromJson (old : ReportT) (j : ReportJson) : Option (ReportT × Bool) :=
  storeFields old j.fields

def ReportT.toJson (r : ReportT) : ReportJson where
  devicePubkey := bytesToHex r.devPublicKey
  smHash := bytesToHex r.smHash
  smPubkey := bytesToHex r.smPublicKey
  smSignature := bytesToHex r.smSignature
  enclaveHash := bytesToHex r.enclaveHash
  datalen := r.dataLen.setWidth 32
  data := bytesToHex (r.data.take r.dataLen.toNat)
  signature := bytesToHex r.enclaveSignature

/- A length that is too large is reported in another object. -/
def stringfy (r : ReportT) : Option ReportJson :=
  if 1024#64 < r.dataLen then none else some r.toJson

/- What a report attests. -/
structure ReportT.Same (r r' : ReportT) : Prop where
  devPublicKey : r'.devPublicKey = r.devPublicKey
  smHash : r'.smHash = r.smHash
  smPublicKey : r'.smPublicKey = r.smPublicKey
  smSignature : r'.smSignature = r.smSignature
  enclaveHash : r'.enclaveHash = r.enclaveHash
  dataLen : r'.dataLen = r.dataLen
  data : r'.data.take r.dataLen.toNat = r.data.take r.dataLen.toNat
  enclaveSignature : r'.enclaveSignature = r.enclaveSignature

variable {r r' old : ReportT} {j : ReportJson}

/- A field that was written in full is read in full. -/
theorem storeFields_bytesToHex
    {f : HexField}
    {bytes : List Byte}
    (old : ReportT)
    (fs : List HexField)
    (hHex : f.hexstr = bytesToHex bytes)
    (hLen : bytes.length = f.len)
    (hFits : bytes.length ≤ f.size) :
    storeFields old (f :: fs) = storeFields (f.store old bytes) fs := by
  have hDecode : f.decode = (bytes, true) := by
    rw [HexField.decode, hHex, ← hLen]
    exact hexToBytes_bytesToHex bytes
  simp only [storeFields, hDecode, if_neg (Nat.not_lt.mpr hFits), if_true]

theorem ReportT.Same.verify_eq (hSame : r.Same r') (hLen : r.dataLen.toNat ≤ 1024) (E : Ed25519)
    (enclaveHash smHash key : List Byte) :
    r'.checkSignaturesOnly E key = r.checkSignaturesOnly E key ∧
    r'.verify E enclaveHash smHash key = r.verify E enclaveHash smHash key := by
  have hMessage : r'.enclaveMessage = r.enclaveMessage := by
    rw [enclaveMessage_eq (hSame.dataLen ▸ hLen), enclaveMessage_eq hLen, hSame.dataLen,
      hSame.enclaveHash, hSame.data]
  have hCheck : r'.checkSignaturesOnly E key = r.checkSignaturesOnly E key := by
    simp only [checkSignaturesOnly, smMessage, hMessage, hSame.smSignature, hSame.smHash,
      hSame.smPublicKey, hSame.enclaveSignature]
  refine ⟨hCheck, ?_⟩
  simp only [verify, hCheck, hSame.enclaveHash, hSame.smHash]

theorem fromJson_toJson (old : ReportT) (hLen : r.dataLen.toNat ≤ 1024) :
    ∃ r', fromJson old r.toJson = some (r', true) ∧ r.Same r' := by
  have hTake : (r.data.take r.dataLen.toNat).length = r.dataLen.toNat := by
    rw [List.length_take, r.data_length]
    omega
  have hCast : r.toJson.dataLen = r.dataLen := by
    change (r.dataLen.setWidth 32).signExtend 64 = r.dataLen
    rw [BitVec.signExtend_eq_setWidth_of_msb_false]
    · bv_omega
    · rw [BitVec.msb_eq_decide]
      simp
      omega
  apply Exists.intro
  apply And.intro
  · change storeFields old [_, _, _, _, _, _, _] = _
    rw [storeFields_bytesToHex old _ rfl r.devPublicKey_length
        (Nat.le_of_eq r.devPublicKey_length),
      storeFields_bytesToHex _ _ rfl r.smHash_length (Nat.le_of_eq r.smHash_length),
      storeFields_bytesToHex _ _ rfl r.smPublicKey_length (Nat.le_of_eq r.smPublicKey_length),
      storeFields_bytesToHex _ _ rfl r.smSignature_length (Nat.le_of_eq r.smSignature_length),
      storeFields_bytesToHex _ _ rfl r.enclaveHash_length (Nat.le_of_eq r.enclaveHash_length),
      storeFields_bytesToHex _ _ rfl (hTake.trans (congrArg BitVec.toNat hCast).symm)
        (hTake.trans_le hLen),
      storeFields_bytesToHex _ _ rfl r.enclaveSignature_length
        (Nat.le_of_eq r.enclaveSignature_length)]
    rfl
  · refine ⟨fill_eq ?_, fill_eq ?_, fill_eq ?_, fill_eq ?_, fill_eq ?_, hCast, ?_, fill_eq ?_⟩
    · exact r.devPublicKey_length.trans old.devPublicKey_length.symm
    · exact r.smHash_length.trans old.smHash_length.symm
    · exact r.smPublicKey_length.trans old.smPublicKey_length.symm
    · exact r.smSignature_length.trans old.smSignature_length.symm
    · exact r.enclaveHash_length.trans old.enclaveHash_length.symm
    · have hData := take_fill (hTake.trans_le (hLen.trans_eq old.data_length.symm))
      rw [hTake] at hData
      exact hData
    · exact r.enclaveSignature_length.trans old.enclaveSignature_length.symm

/- A report that is written and read back attests the same and is judged the same. -/
theorem fromJson_stringfy
    (r old : ReportT)
    (hLen : r.dataLen.toNat ≤ 1024) :
    ∃ j r',
      stringfy r = some j ∧
      fromJson old j = some (r', true) ∧
      r.Same r' ∧
      ∀ E enclaveHash smHash key,
        r'.checkSignaturesOnly E key = r.checkSignaturesOnly E key ∧
        r'.verify E enclaveHash smHash key = r.verify E enclaveHash smHash key := by
  have hShort : ¬ 1024#64 < r.dataLen := by bv_omega
  rcases fromJson_toJson old hLen with ⟨r', hParsed, hSame⟩
  exact ⟨r.toJson, r', if_neg hShort, hParsed, hSame, hSame.verify_eq hLen⟩

/- A report of 0xab bytes, three of them data. -/
def sampleReportT : ReportT where
  enclaveHash := replicate 64 0xab
  dataLen := 3
  data := replicate 1024 0xab
  enclaveSignature := replicate 64 0xab
  smHash := replicate 64 0xab
  smPublicKey := replicate 32 0xab
  smSignature := replicate 64 0xab
  devPublicKey := replicate 32 0xab
  enclaveHash_length := length_replicate
  data_length := length_replicate
  enclaveSignature_length := length_replicate
  smHash_length := length_replicate
  smPublicKey_length := length_replicate
  smSignature_length := length_replicate
  devPublicKey_length := length_replicate

theorem fromJson_stringfy_sample :
    ∃ j r',
      stringfy sampleReportT = some j ∧
      fromJson sampleReportT j = some (r', true) ∧
      sampleReportT.Same r' := by
  rcases fromJson_stringfy sampleReportT sampleReportT (by decide) with
    ⟨j, r', hWritten, hRead, hSame, _⟩
  exact ⟨j, r', hWritten, hRead, hSame⟩

----
-- Malformed Reports
----

/- A verification reads inside the structure, from whose start the message is taken, and accepts no
   report whose length exceeds the array, whatever the signature scheme finds. -/
def VerifiesInside (r : ReportT) : Prop :=
  (64#64 + 8#64 + r.dataLen).toNat ≤ reportSize ∧
    ∀ E key, 1024 < r.dataLen.toNat → r.checkSignaturesOnly E key = false ∧
      ∀ enclaveHash smHash, r.verify E enclaveHash smHash key = false

/- Parsing stores inside the arrays, and what it leaves, whether it returns or throws, is verified
   inside the structure. -/
def ParsesInside (old : ReportT) (j : ReportJson) : Prop :=
  ∃ out, fromJson old j = some out ∧ VerifiesInside out.1

/- The string has a byte, or its end, for every byte of the array before the last. -/
def HexField.Long (f : HexField) : Prop := f.len ≤ f.hexstr.length / 2 + 1

instance (f : HexField) : Decidable f.Long := inferInstanceAs (Decidable (_ ≤ _))

def lenientScheme : Ed25519 :=
  { sampleSigner with verify := fun _ _ _ => true }

theorem verifiesInside_iff : VerifiesInside r ↔ r.dataLen.toNat ≤ 1024 := by
  constructor
  · rintro ⟨_, hRejected⟩
    by_contra hLong
    exact absurd (hRejected lenientScheme [] (by omega)).1 Bool.noConfusion
  · intro hLen
    refine ⟨?_, fun E key hLong => absurd hLong (by omega)⟩
    unfold reportSize
    bv_omega

/- Every array takes as many bytes as were asked for or the string has. -/
theorem storeFields_cons (f : HexField) (fs : List HexField) :
    storeFields old (f :: fs) =
      if f.size < min f.len (f.hexstr.length / 2 + 1) then none
      else if f.Long then storeFields (f.store old f.decode.1) fs
      else some (f.store old f.decode.1, false) := by
  have hCount := hexToBytes_count f.len f.hexstr
  have hReturns : f.decode.2 = true ↔ f.Long := hCount.2
  rw [← hCount.1]
  simp only [storeFields, hReturns]
  rfl

/- A field that asks for the bytes of its array at most, and leaves the length alone. -/
structure HexField.Plain (f : HexField) : Prop where
  len_le : f.len ≤ f.size
  dataLen : ∀ r bytes, (f.store r bytes).dataLen = r.dataLen

/- Plain fields are all read, or one of them is too short and ends the parsing. -/
theorem storeFields_plain
    {fs : List HexField}
    (hPlain : ∀ f ∈ fs, f.Plain)
    (old : ReportT)
    (gs : List HexField) :
    ∃ r : ReportT, r.dataLen = old.dataLen ∧
      storeFields old (fs ++ gs) =
        if ∀ f ∈ fs, f.Long then storeFields r gs else some (r, false) := by
  induction fs generalizing old with
  | nil => exact ⟨old, rfl, by simp⟩
  | cons f fs ih =>
    have hHead := hPlain f List.mem_cons_self
    have hFits : ¬ f.size < min f.len (f.hexstr.length / 2 + 1) := by
      have hLe := hHead.len_le
      omega
    rw [List.cons_append, storeFields_cons, if_neg hFits]
    simp only [List.forall_mem_cons]
    by_cases hLong : f.Long
    · rcases ih (fun g hg => hPlain g (List.mem_cons_of_mem f hg)) (f.store old f.decode.1) with
        ⟨r, hSame, hStore⟩
      refine ⟨r, hSame.trans (hHead.dataLen _ _), ?_⟩
      simp only [hLong, if_true, true_and, hStore]
    · exact ⟨_, hHead.dataLen old f.decode.1, by simp [hLong]⟩

theorem headFields_plain (j : ReportJson) : ∀ f ∈ j.headFields, f.Plain := by
  simp only [ReportJson.headFields, List.forall_mem_cons, List.not_mem_nil, false_implies,
    implies_true, and_true]
  exact ⟨⟨le_rfl, fun _ _ => rfl⟩, ⟨le_rfl, fun _ _ => rfl⟩,
    ⟨le_rfl, fun _ _ => rfl⟩, ⟨le_rfl, fun _ _ => rfl⟩,
    ⟨le_rfl, fun _ _ => rfl⟩⟩

/- Once the length is assigned it decides: longer data leaves the array, or ends with an exception
   that leaves the length in the report. -/
theorem storeFields_data (r : ReportT) (j : ReportJson) :
    (∃ out, storeFields r [j.dataField, j.signatureField] = some out ∧ VerifiesInside out.1) ↔
      j.dataLen.toNat ≤ 1024 := by
  have hPlain : ∀ f ∈ [j.signatureField], f.Plain := by
    rintro f (_ | ⟨_, hNil⟩)
    · exact ⟨le_rfl, fun _ _ => rfl⟩
    · cases hNil
  rcases storeFields_plain hPlain (j.dataField.store r j.dataField.decode.1) [] with
    ⟨r', hSame, hSignature⟩
  have hLast : ∃ last, storeFields (j.dataField.store r j.dataField.decode.1)
        [j.signatureField] = some last ∧ last.1.dataLen = j.dataLen := by
    rw [← List.append_nil [j.signatureField], hSignature]
    split
    · exact ⟨_, rfl, hSame⟩
    · exact ⟨_, rfl, hSame⟩
  rcases hLast with ⟨last, hLast, hNew⟩
  rw [storeFields_cons, hLast]
  simp only [verifiesInside_iff]
  constructor
  · rintro ⟨out, hStored, hLen⟩
    split at hStored
    · cases hStored
    split at hStored
    · cases hStored
      rwa [hNew] at hLen
    · cases hStored
      exact hLen
  · intro hLen
    have hFits : ¬ j.dataField.size < min j.dataField.len (j.dataField.hexstr.length / 2 + 1) := by
      change ¬ 1024 < min j.dataLen.toNat _
      omega
    rw [if_neg hFits]
    split
    · exact ⟨_, rfl, by rwa [hNew]⟩
    · exact ⟨_, rfl, hLen⟩

/- If the arrays before the length are read, the new length decides; otherwise the old one does. -/
theorem parsesInside_iff :
    ParsesInside old j ↔
      if ∀ f ∈ j.headFields, f.Long then j.dataLen.toNat ≤ 1024
      else old.dataLen.toNat ≤ 1024 := by
  rcases storeFields_plain (headFields_plain j) old [j.dataField, j.signatureField] with
    ⟨r, hSame, hStore⟩
  rw [ParsesInside, fromJson, ReportJson.fields, hStore]
  split
  · exact storeFields_data r j
  · simp [verifiesInside_iff, hSame]

/- Malformed reports are handled in bounds exactly if the length in the bytes does not exceed the
   array, and the length in the text does not either; if a string before the length ends early and
   stops the parser, the length that the object had before counts. -/
theorem malformed_inBounds_iff
    (bin : List Byte)
    (hBin : bin.length = reportSize)
    (old : ReportT)
    (j : ReportJson) :
    (VerifiesInside (fromBytes bin hBin) ∧ ParsesInside old j) ↔
      (Bits.ofBytes (fieldAt bin 64 8)).toNat ≤ 1024 ∧
        if ∀ f ∈ j.headFields, f.Long then j.dataLen.toNat ≤ 1024
        else old.dataLen.toNat ≤ 1024 := by
  rw [verifiesInside_iff, parsesInside_iff]
  rfl

/- An object without any of the strings. -/
def emptyJson : ReportJson := ⟨[], [], [], [], [], 0, [], []⟩

theorem malformed_inBounds_iff_empty :
    VerifiesInside (fromBytes (replicate reportSize 0) length_replicate) ∧
    ParsesInside sampleReportT emptyJson :=
  (malformed_inBounds_iff _ length_replicate _ _).mpr ⟨by decide, by decide⟩

/- The arrays before the data are given in full; the length is -1, and the string has a position
   more than the array has bytes, so a byte is stored behind the array before the parser throws. A
   length of 5000 without data ends with an exception and stays in the object, from which a
   verification then reads past the structure. It does so for 2000 bytes of data as well, and the
   report is accepted. -/
theorem malformed_out_of_bounds :
    let j := { sampleReportT.toJson with datalen := -1, data := replicate 2048 'f' }
    let j' := { sampleReportT.toJson with datalen := 5000, data := [] }
    let r := { sampleReportT with dataLen := 2000 }
    (∀ f ∈ j.headFields, f.Long) ∧ ¬ ParsesInside sampleReportT j ∧
      (∃ r', fromJson sampleReportT j' = some (r', false) ∧
        reportSize < (64#64 + 8#64 + r'.dataLen).toNat) ∧
      reportSize < (64#64 + 8#64 + r.dataLen).toNat ∧
      r.verify lenientScheme r.enclaveHash r.smHash [] = true := by
  intro j j' r
  have hThrows : (fromJson sampleReportT j').map (fun out => (out.2, out.1.dataLen)) =
      some (false, 5000) := by
    decide +kernel
  rcases Option.map_eq_some_iff.mp hThrows with ⟨⟨r', returns⟩, hParsed, hFacts⟩
  simp only [Prod.mk.injEq] at hFacts
  rcases hFacts with ⟨rfl, hLen⟩
  refine ⟨by decide +kernel, ?_, ⟨r', hParsed, by rw [hLen]; decide⟩, by decide,
    by decide +kernel⟩
  rw [parsesInside_iff, if_pos (by decide +kernel)]
  decide

end Keystone
