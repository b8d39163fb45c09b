import Mathlib.Data.List.Basic
import Mathlib.Tactic.Common

/-
  Message authentication and key derivation from a hash function.

  HMAC as RFC 2104 has it, for a hash function with blocks of a given length, and the
  extract-and-expand derivation of RFC 5869 on top of it.
-/

----
-- HMAC And HKDF
----

namespace KeyDerivation

variable (H : List (BitVec 8) → List (BitVec 8)) (blockLen hashLen : Nat)

/- A key that is longer than a block is hashed first, and then all are filled up with zeros. -/
def blockKey (key : List (BitVec 8)) : List (BitVec 8) :=
  let k := if blockLen < key.length then H key else key
  k ++ List.replicate (blockLen - k.length) 0

def hmac (key text : List (BitVec 8)) : List (BitVec 8) :=
  let k := blockKey H blockLen key
  H (k.map (· ^^^ 0x5c) ++ H (k.map (· ^^^ 0x36) ++ text))

/- Without a salt, a string of zeros is used. -/
def extract (salt ikm : List (BitVec 8)) : List (BitVec 8) :=
  hmac H blockLen (if salt = [] then List.replicate hashLen 0 else salt) ikm

/- `T(n)`, with `T(0)` the empty string. -/
def blockT (prk info : List (BitVec 8)) : Nat → List (BitVec 8)
| 0 => []
| n + 1 => hmac H blockLen prk (blockT prk info n ++ info ++ [BitVec.ofNat 8 (n + 1)])

/- `T(1) | T(2) | ... | T(n)`. -/
def stream (prk info : List (BitVec 8)) : Nat → List (BitVec 8)
| 0 => []
| n + 1 => stream prk info n ++ blockT H blockLen prk info (n + 1)

/- The first `len` bytes of as many blocks as they need. -/
def hkdf (salt ikm info : List (BitVec 8)) (len : Nat) : List (BitVec 8) :=
  (stream H blockLen (extract H blockLen hashLen salt ikm) info
    ((len + hashLen - 1) / hashLen)).take len

variable {H hashLen}

theorem length_stream (hLength : ∀ m, (H m).length = hashLen) (prk info : List (BitVec 8)) (n : Nat)
    : (stream H blockLen prk info n).length = hashLen * n := by
  induction n with
  | zero => rfl
  | succ n ih => rw [stream, List.length_append, ih, blockT, hmac, hLength, Nat.mul_succ]

theorem take_stream_succ (hLength : ∀ m, (H m).length = hashLen) (prk info : List (BitVec 8))
    (n len : Nat) :
    (stream H blockLen prk info (n + 1)).take len = (stream H blockLen prk info n).take len ++
    (blockT H blockLen prk info (n + 1)).take (len - hashLen * n) := by
  rw [stream, List.take_append, length_stream blockLen hLength]

end KeyDerivation
