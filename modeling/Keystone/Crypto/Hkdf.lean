import Keystone.Crypto.Sha3
import Keystone.Lib.KeyDerivation

/-
  HMAC-SHA3-512 and the key derivation on top of it, as the security monitor implements them.

  The lengths of texts are of type `int`. A text whose length is not positive is not absorbed, and a
  length that does not fit into an `int` changes its value on the way. The result is the
  extract-and-expand derivation of the text that was absorbed in place of the text that was given.
  The counter of the expansion has eight bits, so that the loop for the largest number of blocks
  never ends.
-/

----
-- HMAC
----

namespace Keystone

open BitVec (ofNat ofNat_add toNat_ofNat)
open KeyDerivation (blockKey blockT extract hkdf length_stream stream)

def sha3512HashLen : Nat := 64
def sha3512BlockLen : Nat := 72

/- A `size_t` passed as an `int`. -/
def cInt (n : Word) : Int := (n.setWidth 32).toInt

/- `hmac_sha3_ctx_t`. -/
structure HmacCtx where
  sha3Ctx : Sha3Ctx
  key : List Byte

variable (ctx : HmacCtx) (key : List Byte) (message : List Byte)

/- Every caller passes a whole array as the key. -/
def prepareKey : List Byte :=
  if sha3512BlockLen < key.length then
    sha3 key sha3512HashLen ++ List.replicate (sha3512BlockLen - sha3512HashLen) 0
  else
    key ++ List.replicate (sha3512BlockLen - key.length) 0

def ipad : List Byte := key.map fun b => b ^^^ 0x36

def opad : List Byte := key.map fun b => b ^^^ 0x5c

def hmacSha3Init : HmacCtx :=
  let key := prepareKey key
  { sha3Ctx := sha3Update (sha3Init sha3512HashLen) (ipad key), key := key }

def hmacSha3Update (text : List Byte) (textLen : Int) : HmacCtx :=
  if 0 < textLen then
    { ctx with sha3Ctx := sha3Update ctx.sha3Ctx (text.take textLen.toNat) }
  else ctx

def hmacSha3Final : List Byte :=
  let innerHash := sha3Final ctx.sha3Ctx
  let c := sha3Init sha3512HashLen
  let c := sha3Update c (opad ctx.key)
  let c := sha3Update c innerHash
  sha3Final c

def hmacSha3 (key text : List Byte) (textLen : Int) : List Byte :=
  hmacSha3Final (hmacSha3Update (hmacSha3Init key) text textLen)

----
-- Extract And Expand
----

open ByteMemory

/- No salt stands for the null pointer. -/
def hkdfExtract (salt ikm : List Byte) (ikmLen : Int) : List Byte :=
  let salt :=
    if salt = [] then List.replicate sha3512HashLen 0
    else salt
  hmacSha3 salt ikm ikmLen

/- One round of the loop of `hkdf_expand`. -/
def hkdfRound (prk info : List Byte) (infoLen : Int) (t : List Byte) (i : Nat) : List Byte :=
  let ctx := hmacSha3Init prk
  let ctx :=
    if 1 < i then hmacSha3Update ctx t sha3512HashLen
    else ctx
  let ctx := hmacSha3Update ctx info infoLen
  let ctx := hmacSha3Update ctx [ofNat 8 i] 1
  hmacSha3Final ctx

def divCeil (op1 op2 : Nat) : Nat := if op1 % op2 = 0 then op1 / op2 else op1 / op2 + 1

/- The variables of the loop of `hkdf_expand`, and memory. The counter is an `unsigned char`. -/
structure ExpandVars where
  i : Byte
  t : List Byte
  mem : Word → Byte

/- The body of the loop. The last block is cut to the size of the output. -/
def hkdfExpandBody (prk info : List Byte) (infoLen : Int) (n : Nat) (okm : Word) (okmLen : Nat)
    (s : ExpandVars) : ExpandVars :=
  let t := hkdfRound prk info infoLen s.t s.i.toNat
  let dst := okm + (s.i.setWidth 64 - 1#64) * 64#64
  let size :=
    if s.i.toNat < n then sha3512HashLen
    else okmLen - (s.i.toNat - 1) * sha3512HashLen
  { i := s.i + 1#8
    t := t
    mem := storeBytes s.mem dst (t.take size) }

/- The loop, if it ends before the rounds are used up. -/
def hkdfExpandLoop (prk info : List Byte) (infoLen : Int) (n : Nat) (okm : Word) (okmLen : Nat) :
    Nat → ExpandVars → Option ExpandVars
| 0, _ => none
| rounds + 1, s =>
  if s.i.toNat ≤ n then
    hkdfExpandLoop prk info infoLen n okm okmLen rounds
      (hkdfExpandBody prk info infoLen n okm okmLen s)
  else some s

/- The return value and memory. -/
def hkdfExpand (rounds : Nat) (prk info : List Byte) (infoLen : Int) (okm : Word) (okmLen : Nat)
    (mem : Word → Byte) : Option (Int × (Word → Byte)) :=
  let n := divCeil okmLen sha3512HashLen
  if prk.length < sha3512HashLen then some (-1, mem)
  else if 255 * sha3512HashLen < okmLen then some (-1, mem)
  else
    (hkdfExpandLoop prk info infoLen n okm okmLen rounds ⟨1#8, [], mem⟩).map fun s => (0, s.mem)

def hkdfSha3512 (rounds : Nat) (salt ikm : List Byte) (ikmLen : Int) (info : List Byte)
    (infoLen : Int) (okm : Word) (okmLen : Nat) (mem : Word → Byte) :
    Option (Int × (Word → Byte)) :=
  if 255 * sha3512HashLen < okmLen then some (-1, mem)
  else
    hkdfExpand rounds (hkdfExtract salt ikm ikmLen) info infoLen okm okmLen mem

/- `kdf` of `crypto.c`: the lengths become `int`s. The output is a buffer of its own, and no call
   takes more rounds than the counter has values. -/
def kdf (salt ikm : List Byte) (ikmLen : Word) (info : List Byte) (infoLen : Word)
    (okmLen : Nat) : Option (List Byte) :=
  match hkdfSha3512 256 salt ikm (cInt ikmLen) info (cInt infoLen) 0 okmLen (fun _ => 0) with
  | some (0, mem) => some (readBytes mem 0 okmLen)
  | _ => none

----
-- What Is Absorbed
----

/- The part of a text that an update absorbs. -/
def absorbedText (text : List Byte) (textLen : Int) : List Byte :=
  if 0 < textLen then text.take textLen.toNat else []

theorem cInt_eq_of_lt {n : Word} (hLt : n.toNat < 2 ^ 31) : cInt n = n.toNat := by
  have hNat : (n.setWidth 32).toNat = n.toNat := by
    exact Nat.mod_eq_of_lt (by omega)
  rw [cInt, BitVec.toInt_eq_toNat_of_lt (by omega), hNat]

theorem cInt_lt (n : Word) : cInt n < 2 ^ 31 := BitVec.toInt_lt

theorem absorbedText_eq_iff {text : List Byte} {n : Word} (hText : text.length = n.toNat) :
    absorbedText text (cInt n) = text ↔ n.toNat < 2 ^ 31 := by
  constructor
  · intro hWhole
    have hBound := cInt_lt n
    have hLength := congrArg List.length hWhole
    unfold absorbedText at hLength
    split at hLength
    · rw [List.length_take] at hLength
      omega
    · rw [List.length_nil] at hLength
      omega
  · intro hLt
    rw [absorbedText, cInt_eq_of_lt hLt]
    split
    · exact List.take_of_length_le hText.le
    · symm
      apply List.eq_nil_of_length_eq_zero
      omega

theorem length_absorbedText_lt (text : List Byte) (n : Word) :
    (absorbedText text (cInt n)).length < 2 ^ 31 := by
  have hBound := cInt_lt n
  unfold absorbedText
  split
  · rw [List.length_take]
    omega
  · simp

----
-- The Derivation Of The Absorbed Text
----

/- HMAC of a message. -/
def hmacOf : List Byte :=
  sha3 (opad (prepareKey key) ++ sha3 (ipad (prepareKey key) ++ message) 64) 64

/- The blocks of the expansion. -/
def hkdfT (prk info : List Byte) : Nat → List Byte
| 0 => []
| n + 1 => hmacOf prk (hkdfT prk info n ++ info ++ [ofNat 8 (n + 1)])

/- The derivation with the context `info`. -/
def hkdfOf (salt ikm info : List Byte) (okmLen : Nat) : List Byte :=
  let salt :=
    if salt = [] then List.replicate sha3512HashLen 0
    else salt
  let prk := hmacOf salt ikm
  (((List.range (divCeil okmLen sha3512HashLen)).map
    fun n => hkdfT prk info (n + 1)).flatten).take okmLen

/- The context has absorbed the message. -/
structure HmacCtx.Absorbed : Prop where
  key_eq : ctx.key = prepareKey key
  sha3Ctx_eq : ctx.sha3Ctx = sha3Update (sha3Init sha3512HashLen) (ipad (prepareKey key) ++ message)

variable {ctx : HmacCtx} {key message : List Byte}

theorem hmacSha3Init_absorbed (key : List Byte) : (hmacSha3Init key).Absorbed key [] := by
  constructor
  · rfl
  · rw [List.append_nil]
    rfl

theorem HmacCtx.Absorbed.update (hAbsorbed : ctx.Absorbed key message) (text : List Byte)
    (textLen : Int) :
    (hmacSha3Update ctx text textLen).Absorbed key (message ++ absorbedText text textLen) := by
  unfold hmacSha3Update absorbedText
  split
  · constructor
    · exact hAbsorbed.key_eq
    · simp only [hAbsorbed.sha3Ctx_eq, sha3Update_append, List.append_assoc]
  · rw [List.append_nil]
    exact hAbsorbed

theorem HmacCtx.Absorbed.final (hAbsorbed : ctx.Absorbed key message) :
    hmacSha3Final ctx = hmacOf key message := by
  simp only [hmacSha3Final, hAbsorbed.key_eq, hAbsorbed.sha3Ctx_eq, sha3Update_append, hmacOf, sha3,
    sha3512HashLen]

theorem length_hmacOf (key message : List Byte) : (hmacOf key message).length = 64 :=
  length_sha3 _ 64

theorem length_hkdfT (prk info : List Byte) (n : Nat) : (hkdfT prk info (n + 1)).length = 64 :=
  length_hmacOf _ _

theorem absorbedText_length (text : List Byte) : absorbedText text text.length = text := by
  unfold absorbedText
  split
  · exact List.take_length
  · symm
    apply List.eq_nil_of_length_eq_zero
    omega

theorem hkdfRound_eq (prk info : List Byte) (infoLen : Int) (n : Nat) : hkdfRound prk info infoLen
    (hkdfT prk (absorbedText info infoLen) n) (n + 1) =
    hkdfT prk (absorbedText info infoLen) (n + 1) := by
  have hFirst : (if 1 < n + 1 then
      hmacSha3Update (hmacSha3Init prk) (hkdfT prk (absorbedText info infoLen) n) sha3512HashLen
      else hmacSha3Init prk).Absorbed prk
      (hkdfT prk (absorbedText info infoLen) n) := by
    cases n with
    | zero => exact hmacSha3Init_absorbed prk
    | succ n =>
      have hUpdate :=
        (hmacSha3Init_absorbed prk).update (hkdfT prk (absorbedText info infoLen) (n + 1))
          sha3512HashLen
      have hWhole : absorbedText (hkdfT prk (absorbedText info infoLen) (n + 1)) sha3512HashLen =
          hkdfT prk (absorbedText info infoLen) (n + 1) := by
        rw [sha3512HashLen, ← length_hkdfT prk (absorbedText info infoLen) n]
        exact absorbedText_length _
      rw [hWhole, List.nil_append] at hUpdate
      exact hUpdate
  have hCounter : absorbedText [ofNat 8 (n + 1)] 1 = [ofNat 8 (n + 1)] := rfl
  have hLast := (hFirst.update info infoLen).update [ofNat 8 (n + 1)] 1
  exact hLast.final

theorem hmacOf_eq (key message : List Byte) : hmacOf key message =
    KeyDerivation.hmac (fun m => sha3 m 64) 72 key
    message := by
  have hKey : prepareKey key = blockKey (fun m => sha3 m 64) 72
          key := by
    unfold prepareKey blockKey
    by_cases hLong : 72 < key.length
    · simp only [sha3512BlockLen, sha3512HashLen, hLong, if_true, length_sha3]
    · simp only [sha3512BlockLen, hLong, if_false]
  rw [hmacOf, hKey]
  rfl

theorem hkdfT_eq (prk info : List Byte) (n : Nat) : hkdfT prk info n =
    blockT (fun m => sha3 m 64) 72 prk info
    n := by
  induction n with
  | zero => rfl
  | succ n ih => rw [hkdfT, blockT, ih, hmacOf_eq]

theorem flatten_hkdfT (prk info : List Byte) (n : Nat) : ((List.range n).map fun i =>
      hkdfT prk info (i + 1)).flatten =
    stream (fun m => sha3 m 64) 72 prk info
    n := by
  induction n with
  | zero => rfl
  | succ n ih =>
    rw [List.range_succ, List.map_append, List.flatten_append, ih, stream,
      List.map_singleton, List.flatten_singleton,
      hkdfT_eq]

theorem hkdfOf_eq (salt ikm info : List Byte) (okmLen : Nat) : hkdfOf salt ikm info okmLen =
    hkdf (fun m => sha3 m 64) 72 64 salt ikm info okmLen := by
  have hBlocks : divCeil okmLen sha3512HashLen = (okmLen + 64 - 1) / 64 := by
    unfold divCeil sha3512HashLen
    split <;> omega
  rw [hkdfOf, hkdf, flatten_hkdfT, hBlocks, hmacOf_eq]
  rfl

----
-- The Loop Of The Expansion
----

variable {prk info : List Byte} {infoLen : Int} {okm : Word} {okmLen n k : Nat}
variable {mem : Word → Byte} {s : ExpandVars}

/- After `k` rounds the first blocks are in place. -/
structure ExpandInv (prk text : List Byte) (okm : Word) (okmLen : Nat) (mem : Word → Byte) (k : Nat)
    (s : ExpandVars) : Prop where
  i : s.i = ofNat 8 (k + 1)
  t : s.t = hkdfT prk text k
  mem : s.mem = storeBytes mem okm ((stream (fun m => sha3 m 64) 72 prk
          text k).take okmLen)

theorem expandInv_start : ExpandInv prk info okm okmLen mem 0 ⟨1#8, [], mem⟩ := by
  refine ⟨rfl, rfl, ?_⟩
  rw [stream, List.take_nil]
  rfl

theorem ExpandInv.toNat_i (hInv : ExpandInv prk info okm okmLen mem k s) (hk : k < 255) :
    s.i.toNat = k + 1 := by
  rw [hInv.i, toNat_ofNat]
  exact Nat.mod_eq_of_lt (by omega)

theorem ExpandInv.dst (hInv : ExpandInv prk info okm okmLen mem k s) (hk : k < 255) :
    (s.i.setWidth 64 - 1#64) * 64#64 = ofNat 64 (64 * k) := by
  have hNat := hInv.toNat_i hk
  have hWide : s.i.setWidth 64 = ofNat 64 (k + 1) := by
    apply BitVec.eq_of_toNat_eq
    rw [BitVec.toNat_setWidth, toNat_ofNat, hNat]
  have hSub : ofNat 64 (k + 1) - 1#64 = ofNat 64 k := by
    rw [ofNat_add, BitVec.add_sub_cancel]
  rw [hWide, hSub, ← BitVec.ofNat_mul, Nat.mul_comm]

theorem take_size (hn : n = divCeil okmLen sha3512HashLen) {t : List Byte} (ht : t.length = 64) :
    t.take (if k + 1 < n then sha3512HashLen else okmLen - (k + 1 - 1) * sha3512HashLen) =
    t.take (okmLen - 64 * k) := by
  unfold divCeil sha3512HashLen at hn
  unfold sha3512HashLen
  split
  · have hRoom : 64 ≤ okmLen - 64 * k := by
      split at hn <;> omega
    rw [List.take_of_length_le (by omega), List.take_of_length_le (by omega)]
  · have hSize : okmLen - (k + 1 - 1) * 64 = okmLen - 64 * k := by
      omega
    rw [hSize]

theorem expandInv_step (hn : n = divCeil okmLen sha3512HashLen) (hMax : n < 255) (hk : k < n)
    (hInv : ExpandInv prk (absorbedText info infoLen) okm okmLen mem k s) :
    ExpandInv prk (absorbedText info infoLen) okm okmLen mem (k + 1)
    (hkdfExpandBody prk info infoLen n okm okmLen s) := by
  have hNat := hInv.toNat_i (by omega)
  have hRoom : 64 * k ≤ okmLen := by
    unfold divCeil sha3512HashLen at hn
    split at hn <;> omega
  have hStream := length_stream 72 (fun m => length_sha3 m 64) prk
    (absorbedText info infoLen) k
  have hBlock : hkdfRound prk info infoLen s.t s.i.toNat =
      hkdfT prk (absorbedText info infoLen) (k + 1) := by
    rw [hInv.t, hNat]
    exact hkdfRound_eq prk info infoLen k
  constructor
  · change s.i + 1#8 = _
    rw [hInv.i, ← ofNat_add]
  · exact hBlock
  · change storeBytes s.mem _ _ = _
    rw [hBlock, hInv.dst (by omega), hNat, take_size hn (length_hkdfT _ _ k), hkdfT_eq,
      KeyDerivation.take_stream_succ 72 (fun m => length_sha3 m 64),
      storeBytes_append, ← hInv.mem, List.length_take,
      hStream, Nat.min_eq_right hRoom]

theorem hkdfExpandLoop_ends (prk info : List Byte) (infoLen : Int) (okm : Word) (mem : Word → Byte)
    (hn : n = divCeil okmLen sha3512HashLen) (hMax : n < 255) : ∀ rounds k s, n - k < rounds →
    k ≤ n → ExpandInv prk (absorbedText info infoLen) okm okmLen mem k s → ∃ s',
    hkdfExpandLoop prk info infoLen n okm okmLen rounds s = some s' ∧
    ExpandInv prk (absorbedText info infoLen) okm okmLen mem n s' := by
  intro rounds
  induction rounds with
  | zero =>
    intro k s hRounds
    omega
  | succ rounds ih =>
    intro k s hRounds hLe hInv
    have hNat := hInv.toNat_i (by omega)
    rw [hkdfExpandLoop, hNat]
    by_cases hLt : k < n
    · rw [if_pos (by omega)]
      exact ih (k + 1) _ (by omega) hLt (expandInv_step hn hMax hLt hInv)
    · have hEq : k = n := by omega
      subst hEq
      rw [if_neg (by omega)]
      exact ⟨s, rfl, hInv⟩

theorem hkdfExpandLoop_hangs (hMax : 255 ≤ n) : ∀ rounds s,
    hkdfExpandLoop prk info infoLen n okm okmLen rounds s = none := by
  intro rounds
  induction rounds with
  | zero =>
    intro s
    rfl
  | succ rounds ih =>
    intro s
    rw [hkdfExpandLoop, if_pos (by omega)]
    exact ih _

----
-- The Derivation
----

theorem hkdfExtract_eq (salt ikm : List Byte) (ikmLen : Int) : hkdfExtract salt ikm ikmLen =
    extract (fun m => sha3 m 64) 72 64 salt (absorbedText ikm ikmLen) := by
  rw [hkdfExtract, hmacSha3, extract, ← hmacOf_eq]
  exact ((hmacSha3Init_absorbed _).update ikm ikmLen).final

theorem length_hkdfExtract (salt ikm : List Byte) (ikmLen : Int) :
    (hkdfExtract salt ikm ikmLen).length = 64 := by
  rw [hkdfExtract_eq]
  exact length_sha3 _ 64

/- Up to 254 blocks, the implementation derives from the absorbed parts of the key and the context.
   -/
theorem hkdfSha3512_eq (salt ikm info : List Byte) (ikmLen infoLen : Int) (okm : Word)
    (mem : Word → Byte) (hLen : okmLen ≤ 254 * 64) :
    hkdfSha3512 256 salt ikm ikmLen info infoLen okm okmLen mem = some (0, storeBytes mem okm
      (hkdfOf salt (absorbedText ikm ikmLen) (absorbedText info infoLen) okmLen)) := by
  have hPrk : ¬ (hkdfExtract salt ikm ikmLen).length <
      sha3512HashLen := by
    rw [length_hkdfExtract, sha3512HashLen]
    omega
  have hOkm : ¬ 255 * sha3512HashLen < okmLen := by
    rw [sha3512HashLen]
    omega
  have hBlocks : divCeil okmLen sha3512HashLen = (okmLen + 64 - 1) / 64 := by
    unfold divCeil sha3512HashLen
    split <;> omega
  rcases hkdfExpandLoop_ends (hkdfExtract salt ikm ikmLen) info infoLen okm mem rfl
    (show divCeil okmLen sha3512HashLen < 255 by omega) 256
    0 _ (by omega) (by omega) expandInv_start with
    ⟨s, hLoop, hInv⟩
  rw [hkdfSha3512, if_neg hOkm, hkdfExpand, if_neg hPrk,
    if_neg hOkm, hLoop, hkdfOf_eq, hkdf,
    ← hkdfExtract_eq, ← hBlocks, ← hInv.mem]
  rfl

theorem length_hkdfOf (salt ikm info : List Byte) (okmLen : Nat) :
    (hkdfOf salt ikm info okmLen).length = okmLen := by
  rw [hkdfOf_eq, hkdf, List.length_take, length_stream 72
      (fun m => length_sha3 m 64)]
  omega

/- What a call should do: up to 255 blocks it returns 0 with the first bytes of the derivation in
   the output and nothing else changed, and for a longer output it returns -1 and changes nothing.
   -/
def Derives (salt ikm info : List Byte) (okm : Word) (okmLen : Nat) (mem : Word → Byte) : Prop :=
  (okmLen ≤ 255 * 64 → ∃ rounds mem', hkdfSha3512 rounds salt ikm ikm.length info info.length
          okm okmLen mem = some (0, mem') ∧
        readBytes mem' okm okmLen = hkdf (fun m => sha3 m 64) 72 64 salt
            ikm info okmLen ∧
        ∀ a, ¬ InRange okm okmLen a → mem' a = mem a) ∧
    (255 * 64 < okmLen → ∃ rounds, hkdfSha3512 rounds salt ikm ikm.length info
          info.length okm okmLen mem = some (-1, mem))

theorem hkdfSha3512_hangs (rounds : Nat) (salt ikm info : List Byte) (ikmLen infoLen : Int)
    (okm : Word) (mem : Word → Byte) (hLow : 254 * 64 < okmLen) (hHigh : okmLen ≤ 255 * 64) :
    hkdfSha3512 rounds salt ikm ikmLen info infoLen okm okmLen mem = none := by
  have hPrk : ¬ (hkdfExtract salt ikm ikmLen).length <
      sha3512HashLen := by
    rw [length_hkdfExtract, sha3512HashLen]
    omega
  have hOkm : ¬ 255 * sha3512HashLen < okmLen := by
    rw [sha3512HashLen]
    omega
  have hBlocks : 255 ≤ divCeil okmLen sha3512HashLen := by
    unfold divCeil sha3512HashLen
    split <;> omega
  rw [hkdfSha3512, if_neg hOkm, hkdfExpand, if_neg hPrk, if_neg hOkm, hkdfExpandLoop_hangs hBlocks]
  rfl

theorem hkdfSha3512_derives_iff (salt ikm info : List Byte) (okm : Word) (okmLen : Nat)
    (mem : Word → Byte) :
    Derives salt ikm info okm okmLen mem ↔ okmLen ≤ 254 * 64 ∨ 255 * 64 < okmLen := by
  constructor
  · intro hDerives
    by_contra hNot
    have hLow : 254 * 64 < okmLen := by omega
    have hHigh : okmLen ≤ 255 * 64 := by omega
    rcases hDerives.1 hHigh with ⟨rounds, mem', hRun, _⟩
    rw [hkdfSha3512_hangs _ _ _ _ _ _ _ _ hLow hHigh] at hRun
    cases hRun
  · rintro (hShort | hLong)
    · have hRun := hkdfSha3512_eq salt ikm info ikm.length info.length okm mem hShort
      rw [absorbedText_length, absorbedText_length] at hRun
      have hLength := length_hkdfOf salt ikm info okmLen
      have hRead := readBytes_storeBytes (hkdfOf salt ikm info okmLen) mem okm (by omega)
      rw [hLength, hkdfOf_eq] at hRead
      rw [hkdfOf_eq] at hRun hLength
      refine ⟨fun _ => ⟨256, _, hRun, hRead, ?_⟩, ?_⟩
      · intro a hOut
        rw [← hLength] at hOut
        exact storeBytes_frame _ hOut
      · intro hLong
        omega
    · refine ⟨?_, ?_⟩
      · intro hShort
        omega
      · intro _
        refine ⟨0, ?_⟩
        exact if_pos hLong

/- No key of 255 blocks is ever derived. -/
theorem hkdfSha3512_last_block_hangs : ¬ ∃ rounds result,
    hkdfSha3512 rounds [] [1] 1 [] 0 0x80100000 (255 * 64) (fun _ => 0) = some result := by
  rintro ⟨rounds, result, hRun⟩
  rw [hkdfSha3512_hangs _ _ _ _ _ _ _ _ (by decide) (by decide)] at hRun
  cases hRun

end Keystone
