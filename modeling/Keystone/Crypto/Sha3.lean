import Keystone.Sm.Machine

/-
  The SHA-3 implementation that the boot ROM, the security monitor and the SDK share.

  A context absorbs bytes one by one, so what a sequence of updates absorbs is the concatenation of
  their data. The rest of the development therefore speaks about a digest as a function of the
  absorbed string.
-/

----
-- The Sponge
----

namespace Keystone

def rotl64 (x : Word) (y : Nat) : Word := (x <<< y) ||| (x >>> (64 - y))

def keccakfRndc : Array Word :=
  #[0x0000000000000001, 0x0000000000008082, 0x800000000000808a, 0x8000000080008000,
    0x000000000000808b, 0x0000000080000001,
    0x8000000080008081, 0x8000000000008009,
    0x000000000000008a, 0x0000000000000088,
    0x0000000080008009, 0x000000008000000a,
    0x000000008000808b, 0x800000000000008b,
    0x8000000000008089, 0x8000000000008003,
    0x8000000000008002, 0x8000000000000080,
    0x000000000000800a, 0x800000008000000a,
    0x8000000080008081, 0x8000000000008080,
    0x0000000080000001, 0x8000000080008008]

def keccakfRotc : Array Nat :=
  #[1, 3, 6, 10, 15, 21, 28, 36, 45, 55, 2, 14, 27, 41, 56, 8, 25, 43, 62, 18, 39, 61, 20, 44]

def keccakfPiln : Array Nat :=
  #[10, 7, 11, 17, 18, 3, 5, 16, 8, 21, 24, 4, 15, 23, 19, 13, 12, 2, 20, 14, 22, 9, 6, 1]

/- The 25 lanes of the state. -/
abbrev KeccakState := Array Word

variable (data : List Byte) (mdlen : Nat) (st : KeccakState)

def lane (i : Nat) : Word := st.getD i 0

def keccakTheta : KeccakState :=
  let bc := fun i =>
    lane st i ^^^ lane st (i + 5) ^^^ lane st (i + 10) ^^^ lane st (i + 15) ^^^ lane st (i + 20)
  Array.ofFn fun k : Fin 25 =>
    let i := k.val % 5
    lane st k.val ^^^ (bc ((i + 4) % 5) ^^^ rotl64 (bc ((i + 1) % 5)) 1)

def keccakRhoPi : KeccakState :=
  ((List.range 24).foldl (fun (s : KeccakState × Word) i =>
      let j := keccakfPiln.getD i 0
      (s.1.setIfInBounds j (rotl64 s.2 (keccakfRotc.getD i 0)), lane s.1 j))
    (st, lane st 1)).1

def keccakChi : KeccakState :=
  Array.ofFn fun k : Fin 25 =>
    let i := k.val % 5
    let j := k.val - i
    lane st k.val ^^^ (~~~(lane st (j + (i + 1) % 5)) &&& lane st (j + (i + 2) % 5))

def keccakIota (r : Nat) : KeccakState :=
  st.setIfInBounds 0 (lane st 0 ^^^ keccakfRndc.getD r 0)

def sha3Keccakf : KeccakState :=
  (List.range 24).foldl (fun s r =>
      keccakIota (keccakChi (keccakRhoPi (keccakTheta s))) r)
    st

/- `sha3_ctx_t`; the bytes of the union are those of the lanes in little-endian order. -/
structure Sha3Ctx where
  st : KeccakState
  pt : Nat
  rsiz : Nat
  mdlen : Nat

/- `st.b[j] ^= b`. -/
def xorStateByte (j : Nat) (b : Byte) : KeccakState :=
  st.setIfInBounds (j / 8) (lane st (j / 8) ^^^ (b.setWidth 64 <<< (8 * (j % 8))))

/- `st.b[i]`. -/
def stateByte (i : Nat) : Byte := Bits.byteOf (lane st (i / 8)) (i % 8)

def sha3Init : Sha3Ctx where
  st := Array.replicate 25 0
  pt := 0
  rsiz := 200 - 2 * mdlen
  mdlen := mdlen

variable (c : Sha3Ctx) (parts : List (List Byte))

/- One round of the loop of `sha3_update`. -/
def sha3Absorb (b : Byte) : Sha3Ctx :=
  let st := xorStateByte c.st c.pt b
  if c.rsiz ≤ c.pt + 1 then
    { c with st := sha3Keccakf st, pt := 0 }
  else
    { c with st := st, pt := c.pt + 1 }

def sha3Update (data : List Byte) : Sha3Ctx := data.foldl sha3Absorb c

def sha3Final : List Byte :=
  let st := xorStateByte c.st c.pt 0x06
  let st := xorStateByte st (c.rsiz - 1) 0x80
  let st := sha3Keccakf st
  (List.range c.mdlen).map (stateByte st)

def sha3 : List Byte :=
  sha3Final (sha3Update (sha3Init mdlen) data)

theorem sha3Update_append (xs ys : List Byte) : sha3Update (sha3Update c xs) ys =
    sha3Update c (xs ++ ys) :=
  List.foldl_append.symm

theorem sha3Update_flatten : ∀ c, parts.foldl sha3Update c =
    sha3Update c parts.flatten := by
  induction parts with
  | nil =>
    intro c
    rfl
  | cons part parts ih =>
    intro c
    rw [List.foldl_cons, ih, List.flatten_cons, sha3Update_append]

theorem sha3_of_updates (mdlen : Nat) :
    sha3Final (parts.foldl sha3Update (sha3Init mdlen)) = sha3 parts.flatten mdlen := by
  rw [sha3Update_flatten, sha3]

theorem sha3Update_mdlen : ∀ c, (sha3Update c data).mdlen = c.mdlen := by
  induction data with
  | nil =>
    intro c
    rfl
  | cons b data ih =>
    intro c
    have hStep : (sha3Absorb c b).mdlen = c.mdlen := by
      unfold sha3Absorb
      split <;> rfl
    exact (ih (sha3Absorb c b)).trans hStep

theorem length_sha3 : (sha3 data mdlen).length = mdlen := by
  rw [sha3, sha3Final, List.length_map, List.length_range, sha3Update_mdlen]
  rfl

end Keystone
