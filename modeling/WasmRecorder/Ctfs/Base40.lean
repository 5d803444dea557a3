import Mathlib

/-!
# Base40 names

The name of an internal file of a container is packed into a `u64`, one base-40 digit a
character, least significant first. Digit `0` is padding.

* `encodeName`, `decodeName` — packing and unpacking.
-/

namespace Ctfs

abbrev Bytes := List UInt8

/-- Padding, the digits, the lowercase letters, and the characters `.`, `/` and `-`. -/
def base40Alphabet : Bytes :=
  0 :: "0123456789abcdefghijklmnopqrstuvwxyz./-".toList.map fun ch => UInt8.ofNat ch.toNat

/-- The longest name that fits. -/
def maxNameLen : Nat := 12

inductive NameError where
  | empty
  | tooLong (name : Bytes)
  | notInAlphabet (name : Bytes) (c : UInt8)
  deriving DecidableEq, Repr

/-- The digits still to be packed, the rest of the name, the weight of the next digit and the
sum so far. -/
def encodeDigits (name : Bytes) : Nat → Bytes → UInt64 → UInt64 → Except NameError UInt64
  | 0, _, _, encoded => .ok encoded
  | n + 1, [], scale, encoded =>
    encodeDigits name n [] (if n = 0 then scale else scale * 40) encoded
  | n + 1, c :: rest, scale, encoded =>
    match base40Alphabet.idxOf? c with
    | none | some 0 => .error (.notInAlphabet name c)
    | some (pos + 1) =>
      encodeDigits name n rest (if n = 0 then scale else scale * 40)
        (encoded + UInt64.ofNat (pos + 1) * scale)

def encodeName (name : Bytes) : Except NameError UInt64 :=
  if name = [] then .error .empty
  else if maxNameLen < name.length then .error (.tooLong name)
  else encodeDigits name maxNameLen name 1 0

/-- Digits are taken off until the value, or a padding digit, is zero. `40 ^ 13` exceeds
`2 ^ 64`, so thirteen rounds see every digit. -/
def decodeDigits : Nat → UInt64 → Bytes
  | 0, _ => []
  | n + 1, encoded =>
    if encoded = 0 then []
    else if encoded % 40 = 0 then []
    else base40Alphabet.getD (encoded % 40).toNat 0 :: decodeDigits n (encoded / 40)

def decodeName (encoded : UInt64) : Bytes := decodeDigits 13 encoded

end Ctfs
