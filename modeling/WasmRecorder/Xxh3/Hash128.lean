import WasmRecorder.Lib.Checked
import WasmRecorder.Lib.Returning

/-!
# The page hash

XXH3-128 with the default secret and a zero seed, the hash that addresses memory pages. Every
access is checked: a slice expression or a read behind the end of its slice is a panic. The
accumulation of a long input also keeps a record of what it reads and scrambles, in the order of the
loops.

* `hash128` — the digest, by the class of the length.
* `Event`, `Accumulator` — the lanes, with the words of the input they have been given so far and the
  scrambles they have been through; `Accumulator.read` is the one place where a word is recorded.
* `hash128_returns` — no access of any of the classes is out of range.
* `hash128_reads_input` — neither is any on a long input, whose words cover it: block after block of
  sixteen stripes with a scramble behind each, the partial block, and a last stripe that may overlap
  it.
-/

namespace Xxh3

open Checked LittleEndian Returning Slice

/-! ### Slices -/

abbrev Bytes := List UInt8

def readLE32 (b : Bytes) : Call UInt32 := uint32 b 0

def readLE64 (b : Bytes) : Call UInt64 := uint64 b 0

/-! ### Constants -/

def prime32_1 : UInt64 := 0x9E3779B1
def prime32_2 : UInt64 := 0x85EBCA77
def prime32_3 : UInt64 := 0xC2B2AE3D
def prime64_1 : UInt64 := 0x9E3779B185EBCA87
def prime64_2 : UInt64 := 0xC2B2AE3D27D4EB4F
def prime64_3 : UInt64 := 0x165667B19E3779F9
def prime64_4 : UInt64 := 0x85EBCA77C2B2AE63
def prime64_5 : UInt64 := 0x27D4EB2F165667C5
def primeMX1 : UInt64 := 0x165667919E3779F9
def primeMX2 : UInt64 := 0x9FB21C651E98DF25

def stripeLen : Nat := 64
def secretConsumeRate : Nat := 8
def secretMergeAccsPos : Nat := 11
def secretLastAccPos : Nat := 7
def midsizeMax : Nat := 240
def midsizeStartOffset : Nat := 3
def midsizeLastOffset : Nat := 17
def secretSizeMin : Nat := 136

/-- The default secret. -/
def kSecret : List UInt8 := [
  0xb8, 0xfe, 0x6c, 0x39, 0x23, 0xa4, 0x4b, 0xbe, 0x7c, 0x01, 0x81, 0x2c, 0xf7, 0x21, 0xad, 0x1c,
  0xde, 0xd4, 0x6d, 0xe9, 0x83, 0x90, 0x97, 0xdb, 0x72, 0x40, 0xa4, 0xa4, 0xb7, 0xb3, 0x67, 0x1f,
  0xcb, 0x79, 0xe6, 0x4e, 0xcc, 0xc0, 0xe5, 0x78, 0x82, 0x5a, 0xd0, 0x7d, 0xcc, 0xff, 0x72, 0x21,
  0xb8, 0x08, 0x46, 0x74, 0xf7, 0x43, 0x24, 0x8e, 0xe0, 0x35, 0x90, 0xe6, 0x81, 0x3a, 0x26, 0x4c,
  0x3c, 0x28, 0x52, 0xbb, 0x91, 0xc3, 0x00, 0xcb, 0x88, 0xd0, 0x65, 0x8b, 0x1b, 0x53, 0x2e, 0xa3,
  0x71, 0x64, 0x48, 0x97, 0xa2, 0x0d, 0xf9, 0x4e, 0x38, 0x19, 0xef, 0x46, 0xa9, 0xde, 0xac, 0xd8,
  0xa8, 0xfa, 0x76, 0x3f, 0xe3, 0x9c, 0x34, 0x3f, 0xf9, 0xdc, 0xbb, 0xc7, 0xc7, 0x0b, 0x4f, 0x1d,
  0x8a, 0x51, 0xe0, 0x4b, 0xcd, 0xb4, 0x59, 0x31, 0xc8, 0x9f, 0x7e, 0xc9, 0xd9, 0x78, 0x73, 0x64,
  0xea, 0xc5, 0xac, 0x83, 0x34, 0xd3, 0xeb, 0xc3, 0xc5, 0x81, 0xa0, 0xff, 0xfa, 0x13, 0x63, 0xeb,
  0x17, 0x0d, 0xdd, 0x51, 0xb7, 0xf0, 0xda, 0x49, 0xd3, 0x16, 0x55, 0x26, 0x29, 0xd4, 0x68, 0x9e,
  0x2b, 0x16, 0xbe, 0x58, 0x7d, 0x47, 0xa1, 0xfc, 0x8f, 0xf8, 0xb8, 0xd1, 0x7a, 0xd0, 0x31, 0xce,
  0x45, 0xcb, 0x3a, 0x8f, 0x95, 0x16, 0x04, 0x28, 0xaf, 0xd7, 0xfb, 0xca, 0xbb, 0x4b, 0x40, 0x7e]

/-! ### Mixing -/

/-- A digest. -/
structure Uint128 where
  lo : UInt64 := 0
  hi : UInt64 := 0
  deriving DecidableEq, Repr

/-- `bits.Mul64`: the high and the low word of the product. -/
def mul64 (x y : UInt64) : UInt64 × UInt64 := (UInt64.ofNat (x.toNat * y.toNat / 2 ^ 64), x * y)

def reverseBytes32 (x : UInt32) : UInt32 := UInt32.ofNat (decode (le32 x).reverse)

def reverseBytes64 (x : UInt64) : UInt64 := UInt64.ofNat (decode (le64 x).reverse)

/-- `bits.RotateLeft32` for a rotation by less than the width. -/
def rotateLeft32 (x : UInt32) (k : UInt32) : UInt32 := (x <<< k) ||| (x >>> (32 - k))

def xorshift64 (v shift : UInt64) : UInt64 := v ^^^ (v >>> shift)

def avalanche64 (h : UInt64) : UInt64 :=
  let h := h ^^^ (h >>> 33)
  let h := h * prime64_2
  let h := h ^^^ (h >>> 29)
  let h := h * prime64_3
  h ^^^ (h >>> 32)

def avalanche3 (h : UInt64) : UInt64 :=
  let h := xorshift64 h 37
  let h := h * primeMX1
  xorshift64 h 32

def mul128Fold64 (lhs rhs : UInt64) : UInt64 :=
  let (hi, lo) := mul64 lhs rhs
  lo ^^^ hi

def mix16B (input secret : Bytes) (seed : UInt64) : Call UInt64 := do
  let i0 ← readLE64 input
  let s0 ← readLE64 secret
  let i1 ← readLE64 (← rest input 8)
  let s1 ← readLE64 (← rest secret 8)
  return mul128Fold64 (i0 ^^^ (s0 + seed)) (i1 ^^^ (s1 - seed))

def mix32B (acc : Uint128) (input1 input2 secret : Bytes) (seed : UInt64) :
    Call Uint128 := do
  let lo := acc.lo + (← mix16B input1 secret seed)
  let lo := lo ^^^ ((← readLE64 input2) + (← readLE64 (← rest input2 8)))
  let hi := acc.hi + (← mix16B input2 (← rest secret 16) seed)
  let hi := hi ^^^ ((← readLE64 input1) + (← readLE64 (← rest input1 8)))
  return ⟨lo, hi⟩

/-! ### Short inputs -/

def seed : UInt64 := 0

def len1to3 (data secret : Bytes) : Call Uint128 := do
  let n := data.length
  let c1 := (← elemAt data 0).toUInt32
  let c2 := (← elemAt data (n >>> 1)).toUInt32
  let c3 := (← elemAt data ((n : Int) - 1)).toUInt32
  let combinedl := (c1 <<< 16) ||| (c2 <<< 24) ||| c3 ||| (UInt32.ofNat n <<< 8)
  let combinedh := rotateLeft32 (reverseBytes32 combinedl) 13
  let bitflipl := ((← readLE32 secret) ^^^ (← readLE32 (← rest secret 4))).toUInt64 + seed
  let bitfliph :=
    ((← readLE32 (← rest secret 8)) ^^^ (← readLE32 (← rest secret 12))).toUInt64 - seed
  return ⟨avalanche64 (combinedl.toUInt64 ^^^ bitflipl),
    avalanche64 (combinedh.toUInt64 ^^^ bitfliph)⟩

def len4to8 (data secret : Bytes) : Call Uint128 := do
  let n := data.length
  let inputLo ← readLE32 data
  let inputHi ← readLE32 (← rest data ((n : Int) - 4))
  let input64 := inputLo.toUInt64 + (inputHi.toUInt64 <<< 32)
  let bitflip :=
    ((← readLE64 (← rest secret 16)) ^^^ (← readLE64 (← rest secret 24))) + seed
  let keyed := input64 ^^^ bitflip
  let (hi, lo) := mul64 keyed (prime64_1 + (UInt64.ofNat n <<< 2))
  let hi := hi + (lo <<< 1)
  let lo := lo ^^^ (hi >>> 3)
  let lo := xorshift64 lo 35
  let lo := lo * primeMX2
  let lo := xorshift64 lo 28
  return ⟨lo, avalanche3 hi⟩

def len9to16 (data secret : Bytes) : Call Uint128 := do
  let n := data.length
  let bitflipl :=
    ((← readLE64 (← rest secret 32)) ^^^ (← readLE64 (← rest secret 40))) - seed
  let bitfliph :=
    ((← readLE64 (← rest secret 48)) ^^^ (← readLE64 (← rest secret 56))) + seed
  let inputLo ← readLE64 data
  let inputHi ← readLE64 (← rest data ((n : Int) - 8))
  let (mHi, mLo) := mul64 (inputLo ^^^ inputHi ^^^ bitflipl) prime64_1
  let mLo := mLo + (UInt64.ofNat (n - 1) <<< 54)
  let inputHi := inputHi ^^^ bitfliph
  let mHi := mHi + (inputHi + inputHi.toUInt32.toUInt64 * (prime32_2 - 1))
  let mLo := mLo ^^^ reverseBytes64 mHi
  let (hHi, hLo) := mul64 mLo prime64_2
  let hHi := hHi + mHi * prime64_2
  return ⟨avalanche3 hLo, avalanche3 hHi⟩

def len0to16 (data secret : Bytes) : Call Uint128 :=
  if data.length > 8 then len9to16 data secret
  else if data.length ≥ 4 then len4to8 data secret
  else if data.length > 0 then len1to3 data secret
  else do
    let bitflipl := (← readLE64 (← rest secret 64)) ^^^ (← readLE64 (← rest secret 72))
    let bitfliph := (← readLE64 (← rest secret 80)) ^^^ (← readLE64 (← rest secret 88))
    return ⟨avalanche64 (seed ^^^ bitflipl), avalanche64 (seed ^^^ bitfliph)⟩

/-! ### Inputs of middle size -/

def foldMidsize (acc : Uint128) (n seed : UInt64) : Uint128 :=
  let lo := acc.lo + acc.hi
  let hi := acc.lo * prime64_1 + acc.hi * prime64_4 + (n - seed) * prime64_2
  ⟨avalanche3 lo, 0 - avalanche3 hi⟩

/-- `mix32B` of two slices of the input and one of the secret, by where they begin. -/
def mixAt (data secret : Bytes) (acc : Uint128) (i j k : Int) (seed : UInt64) :
    Call Uint128 := do
  mix32B acc (← rest data i) (← rest data j) (← rest secret k) seed

/-- One of the nested steps of `len17to128`, taken above a length. -/
def mixAbove (bound : Nat) (data secret : Bytes) (acc : Uint128) (i j k : Int) :
    Call Uint128 :=
  if bound < data.length then mixAt data secret acc i j k seed else .ok acc

def len17to128 (data secret : Bytes) : Call Uint128 := do
  let n : Int := data.length
  let acc : Uint128 := ⟨UInt64.ofNat data.length * prime64_1, 0⟩
  -- the source nests the three conditions; a larger bound implies the smaller ones
  let acc ← mixAbove 96 data secret acc 48 (n - 64) 96
  let acc ← mixAbove 64 data secret acc 32 (n - 48) 64
  let acc ← mixAbove 32 data secret acc 16 (n - 32) 32
  let acc ← mix32B acc data (← rest data (n - 16)) secret seed
  return foldMidsize acc (UInt64.ofNat data.length) seed

def len129to240 (data secret : Bytes) : Call Uint128 := do
  let n := data.length
  let acc : Uint128 := ⟨UInt64.ofNat n * prime64_1, 0⟩
  -- `for i := 32; i < 160; i += 32`
  let acc ← (List.range 4).foldlM (fun acc (r : Nat) =>
    let i : Int := 32 + 32 * r
    mixAt data secret acc (i - 32) (i - 16) (i - 32) seed) acc
  let acc : Uint128 := ⟨avalanche3 acc.lo, avalanche3 acc.hi⟩
  -- `for i := 160; i <= n; i += 32`
  let acc ← (List.range ((n + 32 - 160) / 32)).foldlM (fun acc (r : Nat) =>
    let i : Int := 160 + 32 * r
    mixAt data secret acc (i - 32) (i - 16) (midsizeStartOffset + i - 160) seed) acc
  let acc ← mixAt data secret acc ((n : Int) - 16) ((n : Int) - 32)
    ((secretSizeMin : Int) - midsizeLastOffset - 16) (0 - seed)
  return foldMidsize acc (UInt64.ofNat n) seed

/-! ### Long inputs -/

/-- What an accumulator goes through: a read of eight bytes of the input, by the slice they are read
from, or the scramble of a lane. -/
inductive Event where
  | word (b : Bytes)
  | scramble (lane : Fin 8)
  deriving DecidableEq, Repr

/-- The eight lanes, with what they have been through so far. -/
structure Accumulator where
  lanes : Vector UInt64 8
  log : List Event

def initAcc : Accumulator :=
  ⟨#v[prime32_3, prime64_1, prime64_2, prime64_3, prime64_4, prime32_2, prime64_5, prime32_1], []⟩

/-- Read a word of the input, and record it. -/
def Accumulator.read (acc : Accumulator) (b : Bytes) : Call (UInt64 × Accumulator) := do
  let v ← readLE64 b
  return (v, { acc with log := acc.log ++ [.word b] })

/-- The other lane of the pair. -/
def swapped (i : Fin 8) : Fin 8 :=
  ⟨i.val ^^^ 1, Nat.xor_lt_two_pow (n := 3) i.isLt (by decide)⟩

/-- One lane's share of a stripe. -/
def accumulateLane (input secret : Bytes) (acc : Accumulator) (i : Fin 8) : Call Accumulator := do
  let (dataVal, acc) ← acc.read (← rest input (i.val * 8))
  let dataKey := dataVal ^^^ (← readLE64 (← rest secret (i.val * 8)))
  let lanes := acc.lanes.set (swapped i) (acc.lanes.get (swapped i) + dataVal)
  let v := lanes.get i + dataKey.toUInt32.toUInt64 * (dataKey >>> 32).toUInt32.toUInt64
  return { acc with lanes := lanes.set i v }

/-- One stripe. -/
def accumulate512 (acc : Accumulator) (input secret : Bytes) : Call Accumulator :=
  (List.finRange 8).foldlM (accumulateLane input secret) acc

def accumulate (acc : Accumulator) (input secret : Bytes) (nbStripes : Nat) :
    Call Accumulator :=
  (List.range nbStripes).foldlM (fun acc n => do
    accumulate512 acc (← rest input (n * stripeLen : Nat))
      (← rest secret (n * secretConsumeRate : Nat))) acc

def scrambleLane (secret : Bytes) (acc : Accumulator) (i : Fin 8) : Call Accumulator := do
  let key64 ← readLE64 (← rest secret (i.val * 8))
  let v := xorshift64 (acc.lanes.get i) 47
  let v := v ^^^ key64
  return ⟨acc.lanes.set i (v * prime32_1), acc.log ++ [.scramble i]⟩

def scrambleAcc (acc : Accumulator) (secret : Bytes) : Call Accumulator :=
  (List.finRange 8).foldlM (scrambleLane secret) acc

def nbStripesPerBlock (secret : Bytes) : Nat := (secret.length - stripeLen) / secretConsumeRate

def blockLen (secret : Bytes) : Nat := stripeLen * nbStripesPerBlock secret

def nbBlocks (input secret : Bytes) : Nat := (input.length - 1) / blockLen secret

/-- The stripes of the last, partial block. -/
def nbStripes (input secret : Bytes) : Nat :=
  ((input.length - 1) - blockLen secret * nbBlocks input secret) / stripeLen

/-- A full block, with the scramble behind it. -/
def hashBlock (input secret : Bytes) (acc : Accumulator) (i : Nat) : Call Accumulator := do
  let acc ← accumulate acc (← rest input (i * blockLen secret : Nat)) secret
    (nbStripesPerBlock secret)
  scrambleAcc acc (← rest secret ((secret.length : Int) - stripeLen))

def hashLongLoop (acc : Accumulator) (input secret : Bytes) : Call Accumulator := do
  let acc ← (List.range (nbBlocks input secret)).foldlM (hashBlock input secret) acc
  -- last partial block
  let acc ← accumulate acc (← rest input (nbBlocks input secret * blockLen secret : Nat)) secret
    (nbStripes input secret)
  -- last stripe
  accumulate512 acc (← rest input ((input.length : Int) - stripeLen))
    (← rest secret ((secret.length : Int) - stripeLen - secretLastAccPos))

def mix2Accs (acc0 acc1 : UInt64) (secret : Bytes) : Call UInt64 := do
  return mul128Fold64 (acc0 ^^^ (← readLE64 secret)) (acc1 ^^^ (← readLE64 (← rest secret 8)))

def mergeAccs (acc : Accumulator) (secret : Bytes) (start : UInt64) : Call UInt64 := do
  let result ← (List.finRange 4).foldlM (fun result (i : Fin 4) => do
    let mixed ← mix2Accs (acc.lanes.get ⟨2 * i.val, by omega⟩)
      (acc.lanes.get ⟨2 * i.val + 1, by omega⟩) (← rest secret (16 * i.val))
    return result + mixed) start
  return avalanche3 result

def hashLong (input secret : Bytes) : Call Uint128 := do
  let acc ← hashLongLoop initAcc input secret
  let n := UInt64.ofNat input.length
  let lo ← mergeAccs acc (← rest secret secretMergeAccsPos) (n * prime64_1)
  let hi ← mergeAccs acc (← rest secret ((secret.length : Int) - stripeLen - secretMergeAccsPos))
    (~~~(n * prime64_2))
  return ⟨lo, hi⟩

/-- The digest of a page. -/
def hash128 (data : List UInt8) : Call Uint128 :=
  let secret := kSecret
  if data.length ≤ 16 then len0to16 data secret
  else if data.length ≤ 128 then len17to128 data secret
  else if data.length ≤ midsizeMax then len129to240 data secret
  else hashLong data secret

/-! ### Accesses in range -/

section Access

variable {b input secret : Bytes} {k : Int} {β : Type} {R : β → Prop}

theorem rest_returns (h0 : 0 ≤ k) (hk : k ≤ b.length) : Returns (rest b k : Call Bytes) fun b' =>
    b' = b.drop k.toNat ∧ (b'.length : Int) = b.length - k := by
  refine ⟨b.drop k.toNat, ?_, rfl, ?_⟩
  · rw [rest, if_pos h0, sub_eq (by omega) le_rfl, slice, List.take_length]
  · rw [List.length_drop]
    omega

theorem elemAt_returns (h0 : 0 ≤ k) (hk : k < b.length) :
    Returns (elemAt b k : Call UInt8) fun _ => True := by
  refine ⟨b.get ⟨k.toNat, by omega⟩, ?_, trivial⟩
  rw [elemAt, if_pos h0, List.getElem?_eq_getElem (by omega)]
  rfl

theorem read32_bind {f : UInt32 → Call β} (h : 4 ≤ b.length) (hf : ∀ v, Returns (f v) R) :
    Returns (readLE32 b >>= f) R :=
  Returns.bind (Q := fun _ => True) ⟨_, uint32_eq (by omega), trivial⟩ fun v _ => hf v

theorem read64_bind {f : UInt64 → Call β} (h : 8 ≤ b.length) (hf : ∀ v, Returns (f v) R) :
    Returns (readLE64 b >>= f) R :=
  Returns.bind (Q := fun _ => True) ⟨_, uint64_eq (by omega), trivial⟩ fun v _ => hf v

theorem rest_read32_bind {f : UInt32 → Call β} (h0 : 0 ≤ k) (hk : k + 4 ≤ b.length)
    (hf : ∀ v, Returns (f v) R) : Returns (rest b k >>= fun b' => readLE32 b' >>= f) R :=
  (rest_returns h0 (by omega)).bind fun _ hb => read32_bind (by omega) hf

theorem rest_read64_bind {f : UInt64 → Call β} (h0 : 0 ≤ k) (hk : k + 8 ≤ b.length)
    (hf : ∀ v, Returns (f v) R) : Returns (rest b k >>= fun b' => readLE64 b' >>= f) R :=
  (rest_returns h0 (by omega)).bind fun _ hb => read64_bind (by omega) hf

end Access

section Classes

variable {data secret : Bytes} (hsecret : secret.length = 192)

theorem mix16B_returns {input secret : Bytes} (hi : 16 ≤ input.length) (hs : 16 ≤ secret.length)
    (seed : UInt64) : Returns (mix16B input secret seed) fun _ => True := by
  unfold mix16B
  refine read64_bind (by omega) fun i0 => read64_bind (by omega) fun s0 => ?_
  refine rest_read64_bind (by omega) (by omega) fun i1 => ?_
  exact rest_read64_bind (by omega) (by omega) fun s1 => returns_pure trivial

theorem mix32B_returns {input1 input2 secret : Bytes} (h1 : 16 ≤ input1.length)
    (h2 : 16 ≤ input2.length) (hs : 32 ≤ secret.length) (acc : Uint128) (seed : UInt64) :
    Returns (mix32B acc input1 input2 secret seed) fun _ => True := by
  unfold mix32B
  refine (mix16B_returns h1 (by omega) seed).bind fun m1 _ => ?_
  refine read64_bind (by omega) fun a0 => rest_read64_bind (by omega) (by omega) fun a1 => ?_
  refine (rest_returns (by omega) (by omega)).bind fun secret' hs' => ?_
  refine (mix16B_returns h2 (by omega) seed).bind fun m2 _ => ?_
  refine read64_bind (by omega) fun b0 => ?_
  exact rest_read64_bind (by omega) (by omega) fun b1 => returns_pure trivial

theorem mixAt_returns {i j k : Int} (hi : 0 ≤ i ∧ i + 16 ≤ data.length)
    (hj : 0 ≤ j ∧ j + 16 ≤ data.length) (hk : 0 ≤ k ∧ k + 32 ≤ secret.length) (acc : Uint128)
    (seed : UInt64) : Returns (mixAt data secret acc i j k seed) fun _ => True := by
  unfold mixAt
  refine (rest_returns hi.1 (by omega)).bind fun b1 h1 => ?_
  refine (rest_returns hj.1 (by omega)).bind fun b2 h2 => ?_
  refine (rest_returns hk.1 (by omega)).bind fun b3 h3 => ?_
  exact mix32B_returns (by omega) (by omega) (by omega) acc seed

include hsecret

theorem len1to3_returns (h : 0 < data.length) : Returns (len1to3 data secret) fun _ => True := by
  have hhalf : data.length >>> 1 = data.length / 2 := Nat.shiftRight_one data.length
  unfold len1to3
  refine (elemAt_returns (by omega) (by omega)).bind fun c1 _ => ?_
  refine (elemAt_returns (by omega) (by omega)).bind fun c2 _ => ?_
  refine (elemAt_returns (by omega) (by omega)).bind fun c3 _ => ?_
  refine read32_bind (by omega) fun s0 => rest_read32_bind (by omega) (by omega) fun s1 => ?_
  refine rest_read32_bind (by omega) (by omega) fun s2 => ?_
  exact rest_read32_bind (by omega) (by omega) fun s3 => returns_pure trivial

theorem len4to8_returns (h : 4 ≤ data.length) : Returns (len4to8 data secret) fun _ => True := by
  unfold len4to8
  refine read32_bind (by omega) fun lo => rest_read32_bind (by omega) (by omega) fun hi => ?_
  refine rest_read64_bind (by omega) (by omega) fun s0 => ?_
  exact rest_read64_bind (by omega) (by omega) fun s1 => returns_pure trivial

theorem len9to16_returns (h : 8 < data.length) : Returns (len9to16 data secret) fun _ => True := by
  unfold len9to16
  refine rest_read64_bind (by omega) (by omega) fun s0 => ?_
  refine rest_read64_bind (by omega) (by omega) fun s1 => ?_
  refine rest_read64_bind (by omega) (by omega) fun s2 => ?_
  refine rest_read64_bind (by omega) (by omega) fun s3 => ?_
  refine read64_bind (by omega) fun lo => ?_
  exact rest_read64_bind (by omega) (by omega) fun hi => returns_pure trivial

theorem len0to16_returns : Returns (len0to16 data secret) fun _ => True := by
  refine .ite (fun h => len9to16_returns hsecret h) fun _ => ?_
  refine .ite (fun h => len4to8_returns hsecret h) fun _ => ?_
  refine .ite (fun h => len1to3_returns hsecret h) fun _ => ?_
  refine rest_read64_bind (by omega) (by omega) fun s0 => ?_
  refine rest_read64_bind (by omega) (by omega) fun s1 => ?_
  refine rest_read64_bind (by omega) (by omega) fun s2 => ?_
  exact rest_read64_bind (by omega) (by omega) fun s3 => returns_pure trivial

omit hsecret in
theorem mixAbove_returns {bound : Nat} {i j k : Int} (acc : Uint128)
    (h : bound < data.length → (0 ≤ i ∧ i + 16 ≤ data.length) ∧ (0 ≤ j ∧ j + 16 ≤ data.length) ∧
      0 ≤ k ∧ k + 32 ≤ secret.length) :
    Returns (mixAbove bound data secret acc i j k) fun _ => True :=
  .ite (fun hlen => mixAt_returns (h hlen).1 (h hlen).2.1 (h hlen).2.2 acc seed)
    fun _ => returns_ok trivial

theorem len17to128_returns (h : 16 < data.length) :
    Returns (len17to128 data secret) fun _ => True := by
  unfold len17to128
  refine (mixAbove_returns _ (by omega)).bind fun acc _ => ?_
  refine (mixAbove_returns _ (by omega)).bind fun acc _ => ?_
  refine (mixAbove_returns _ (by omega)).bind fun acc _ => ?_
  refine (rest_returns (by omega) (by omega)).bind fun tail htail => ?_
  refine (mix32B_returns (by omega) (by omega) (by omega) acc seed).bind fun acc _ => ?_
  exact returns_pure trivial

theorem len129to240_returns (h : 128 < data.length) (h' : data.length ≤ 240) :
    Returns (len129to240 data secret) fun _ => True := by
  unfold len129to240
  refine Returns.bind (Q := fun _ => True) (.foldlM trivial fun acc r hr _ => ?_) fun acc _ => ?_
  · have hr := List.mem_range.mp hr
    exact mixAt_returns ⟨by omega, by omega⟩ ⟨by omega, by omega⟩ ⟨by omega, by omega⟩ _ _
  refine Returns.bind (Q := fun _ => True) (.foldlM trivial fun acc r hr _ => ?_) fun acc _ => ?_
  · have hr := List.mem_range.mp hr
    have hpos : midsizeStartOffset = 3 := rfl
    exact mixAt_returns ⟨by omega, by omega⟩ ⟨by omega, by omega⟩ ⟨by omega, by omega⟩ _ _
  have hlast : (secretSizeMin : Int) - midsizeLastOffset - 16 = 103 := rfl
  refine (mixAt_returns ⟨by omega, by omega⟩ ⟨by omega, by omega⟩ ⟨by omega, by omega⟩ _ _).bind
    fun acc _ => returns_pure trivial

end Classes

/-! ### The words of a long input -/

/-- The words of one stripe. -/
def stripe (b : Bytes) : List Event := (List.finRange 8).map fun i => .word (b.drop (i.val * 8))

/-- Stripes that follow one another. -/
def stripes (b : Bytes) (count : Nat) : List Event :=
  (List.range count).flatMap fun n => stripe (b.drop (n * stripeLen))

/-- A block of sixteen stripes and the scramble of all lanes behind it. -/
def block (b : Bytes) : List Event := stripes b 16 ++ (List.finRange 8).map .scramble

/-- What an input takes its accumulator through: the full blocks, the partial block and the last
stripe. -/
def longLog (b : Bytes) : List Event :=
  ((List.range ((b.length - 1) / 1024)).flatMap fun i => block (b.drop (i * 1024))) ++
    stripes (b.drop ((b.length - 1) / 1024 * 1024)) ((b.length - 1) % 1024 / stripeLen) ++
    stripe (b.drop (b.length - stripeLen))

section Long

variable {input secret : Bytes}

theorem accumulateLane_returns (hi : 64 ≤ input.length) (hs : 64 ≤ secret.length) (i : Fin 8)
    (acc : Accumulator) : Returns (accumulateLane input secret acc i) fun acc' =>
      acc'.log = acc.log ++ [.word (input.drop (i.val * 8))] := by
  unfold accumulateLane
  refine (rest_returns (by omega) (by omega)).bind fun b hb => ?_
  have hdrop : b = input.drop (i.val * 8) := hb.1
  refine Returns.bind (Q := fun r => r.2.log = acc.log ++ [.word b]) ?_ fun r hr => ?_
  · exact read64_bind (by omega) fun v => returns_pure rfl
  · rw [← hdrop, ← hr]
    exact rest_read64_bind (by omega) (by omega) fun key => returns_pure rfl

theorem accumulate512_returns (hi : 64 ≤ input.length) (hs : 64 ≤ secret.length)
    (acc : Accumulator) :
    Returns (accumulate512 acc input secret) fun acc' => acc'.log = acc.log ++ stripe input := by
  rw [stripe, List.map_eq_flatMap]
  exact .foldlM_record fun acc i _ => accumulateLane_returns hi hs i acc

theorem scrambleAcc_returns (hs : 64 ≤ secret.length) (acc : Accumulator) :
    Returns (scrambleAcc acc secret) fun acc' =>
      acc'.log = acc.log ++ (List.finRange 8).map .scramble := by
  rw [List.map_eq_flatMap]
  refine .foldlM_record fun acc i _ => ?_
  exact rest_read64_bind (by omega) (by omega) fun key => returns_pure rfl

theorem accumulate_returns {count : Nat} (hi : 64 * count ≤ input.length)
    (hs : 8 * count + 56 ≤ secret.length) (acc : Accumulator) :
    Returns (accumulate acc input secret count) fun acc' =>
      acc'.log = acc.log ++ stripes input count := by
  refine .foldlM_record fun acc n hn => ?_
  have hn := List.mem_range.mp hn
  have hstripe : stripeLen = 64 := rfl
  have hrate : secretConsumeRate = 8 := rfl
  refine (rest_returns (by omega) (by rw [hstripe]; omega)).bind fun input' hi' => ?_
  refine (rest_returns (by omega) (by rw [hrate]; omega)).bind fun secret' hs' => ?_
  rw [hrate] at hs'
  have hdrop : input' = input.drop (n * stripeLen) := hi'.1
  rw [← hdrop]
  rw [hstripe] at hi'
  exact accumulate512_returns (by omega) (by omega) acc

variable (hsecret : secret.length = 192)

include hsecret

theorem nbStripesPerBlock_eq : nbStripesPerBlock secret = 16 := by
  rw [nbStripesPerBlock, hsecret]
  rfl

theorem blockLen_eq : blockLen secret = 1024 := by
  rw [blockLen, nbStripesPerBlock_eq hsecret]
  rfl

theorem nbBlocks_eq : nbBlocks input secret = (input.length - 1) / 1024 := by
  rw [nbBlocks, blockLen_eq hsecret]

theorem nbStripes_eq : nbStripes input secret = (input.length - 1) % 1024 / 64 := by
  rw [nbStripes, blockLen_eq hsecret, nbBlocks_eq hsecret]
  change (input.length - 1 - 1024 * ((input.length - 1) / 1024)) / 64 = _
  congr 1
  omega

theorem hashBlock_returns {i : Nat} (hi : 1024 * (i + 1) ≤ input.length) (acc : Accumulator) :
    Returns (hashBlock input secret acc i) fun acc' =>
      acc'.log = acc.log ++ block (input.drop (i * 1024)) := by
  have hstripe : stripeLen = 64 := rfl
  unfold hashBlock
  rw [blockLen_eq hsecret, nbStripesPerBlock_eq hsecret]
  refine (rest_returns (by omega) (by omega)).bind fun input' hi' => ?_
  have hdrop : input' = input.drop (i * 1024) := hi'.1
  rw [← hdrop]
  refine (accumulate_returns (by omega) (by omega) acc).bind fun acc' hacc => ?_
  refine (rest_returns (by omega) (by omega)).bind fun secret' hs' => ?_
  refine (scrambleAcc_returns (by omega) acc').mono fun acc'' h => ?_
  rw [h, hacc, block, List.append_assoc]

theorem hashLongLoop_returns (h : 240 < input.length) (acc : Accumulator) :
    Returns (hashLongLoop acc input secret) fun acc' => acc'.log = acc.log ++ longLog input := by
  have hstripe : stripeLen = 64 := rfl
  have hlast : secretLastAccPos = 7 := rfl
  unfold hashLongLoop
  rw [blockLen_eq hsecret, nbBlocks_eq hsecret, nbStripes_eq hsecret]
  -- every full block leaves at least one byte behind it
  have hblocks : Returns ((List.range ((input.length - 1) / 1024)).foldlM (hashBlock input secret) acc)
      fun acc' => acc'.log = acc.log ++
        (List.range ((input.length - 1) / 1024)).flatMap fun i => block (input.drop (i * 1024)) := by
    refine .foldlM_record fun acc i hi => ?_
    have hi := List.mem_range.mp hi
    exact hashBlock_returns hsecret (by omega) acc
  refine hblocks.bind fun acc₁ h₁ => ?_
  refine (rest_returns (by omega) (by omega)).bind fun input' hi' => ?_
  refine (accumulate_returns (by omega) (by omega) acc₁).bind fun acc₂ h₂ => ?_
  refine (rest_returns (by omega) (by omega)).bind fun input'' hi'' => ?_
  refine (rest_returns (by omega) (by omega)).bind fun secret' hs' => ?_
  refine (accumulate512_returns (by omega) (by omega) acc₂).mono fun acc₃ h₃ => ?_
  have hpartial : input' = input.drop ((input.length - 1) / 1024 * 1024) := hi'.1
  have htail : input'' = input.drop (input.length - stripeLen) := by
    rw [hi''.1]
    congr 1
    omega
  rw [h₃, h₂, h₁, hpartial, htail, longLog, hstripe]
  simp only [List.append_assoc]

end Long

theorem length_kSecret : kSecret.length = 192 := by decide +kernel

theorem mergeAccs_returns {secret : Bytes} (hs : 64 ≤ secret.length) (acc : Accumulator)
    (start : UInt64) : Returns (mergeAccs acc secret start) fun _ => True := by
  unfold mergeAccs
  refine Returns.bind (Q := fun _ => True) (.foldlM trivial fun result i _ _ => ?_)
    fun result _ => returns_pure trivial
  unfold mix2Accs
  refine (rest_returns (by omega) (by omega)).bind fun secret' hs' => ?_
  refine Returns.bind (Q := fun _ => True) ?_ fun mixed _ => returns_pure trivial
  refine read64_bind (by omega) fun s0 => ?_
  exact rest_read64_bind (by omega) (by omega) fun s1 => returns_pure trivial

theorem hashLong_returns {data secret : Bytes} (hsecret : secret.length = 192)
    (h : 240 < data.length) : Returns (hashLong data secret) fun _ => True := by
  have hstripe : stripeLen = 64 := rfl
  have hmerge : secretMergeAccsPos = 11 := rfl
  unfold hashLong
  refine (hashLongLoop_returns hsecret h initAcc).bind fun acc _ => ?_
  refine (rest_returns (by omega) (by omega)).bind fun s1 h1 => ?_
  refine (mergeAccs_returns (by omega) acc _).bind fun lo _ => ?_
  refine (rest_returns (by omega) (by omega)).bind fun s2 h2 => ?_
  exact (mergeAccs_returns (by omega) acc _).bind fun hi _ => returns_pure trivial

/-- No access is out of range, whatever the length. -/
theorem hash128_returns (data : List UInt8) : Returns (hash128 data) fun _ => True := by
  have hsecret := length_kSecret
  unfold hash128
  refine .ite (fun _ => len0to16_returns hsecret) fun h16 => ?_
  refine .ite (fun _ => len17to128_returns hsecret (by omega)) fun h128 => ?_
  refine .ite (fun h240 => len129to240_returns hsecret (by omega) h240) fun h240 => ?_
  have hmid : midsizeMax = 240 := rfl
  exact hashLong_returns hsecret (by omega)

example : (hash128 []).toOption = some ⟨0x6001c324468d497f, 0x99aa06d3014798d8⟩ := by
  decide +kernel

theorem mem_stripe {b w : Bytes} : .word w ∈ stripe b ↔ ∃ k < 8, w = b.drop (8 * k) := by
  rw [stripe, List.mem_map]
  constructor
  · rintro ⟨i, -, ⟨⟩⟩
    exact ⟨i.val, i.isLt, by rw [Nat.mul_comm]⟩
  · rintro ⟨k, hk, rfl⟩
    exact ⟨⟨k, hk⟩, List.mem_finRange _, by rw [Nat.mul_comm]⟩

theorem mem_stripes {b w : Bytes} {count : Nat} :
    .word w ∈ stripes b count ↔ ∃ k < 8 * count, w = b.drop (8 * k) := by
  simp only [stripes, List.mem_flatMap, List.mem_range, mem_stripe, List.drop_drop, stripeLen]
  constructor
  · rintro ⟨n, hn, k, hk, rfl⟩
    exact ⟨8 * n + k, by omega, by congr 1; omega⟩
  · rintro ⟨k, hk, rfl⟩
    exact ⟨k / 8, by omega, k % 8, by omega, by congr 1; omega⟩

theorem mem_block {b w : Bytes} : .word w ∈ block b ↔ .word w ∈ stripes b 16 := by
  simp [block]

/-- Where the words of an input of `n` bytes begin: in the full blocks, in the partial block, and in
the last stripe. -/
def WordAt (n s : Nat) : Prop :=
  (∃ i < (n - 1) / 1024, ∃ k < 128, s = 1024 * i + 8 * k) ∨
    (∃ k < 8 * ((n - 1) % 1024 / 64), s = 1024 * ((n - 1) / 1024) + 8 * k) ∨
    ∃ k < 8, s = n - 64 + 8 * k

theorem mem_longLog {b w : Bytes} :
    .word w ∈ longLog b ↔ ∃ s, WordAt b.length s ∧ w = b.drop s := by
  simp only [longLog, List.mem_append, List.mem_flatMap, mem_block, mem_stripes, mem_stripe,
    List.mem_range, List.drop_drop, stripeLen, WordAt]
  constructor
  · rintro ((⟨i, hi, k, hk, rfl⟩ | ⟨k, hk, rfl⟩) | ⟨k, hk, rfl⟩)
    · exact ⟨_, .inl ⟨i, hi, k, hk, rfl⟩, by rw [Nat.mul_comm i]⟩
    · exact ⟨_, .inr (.inl ⟨k, hk, rfl⟩), by rw [Nat.mul_comm 1024]⟩
    · exact ⟨_, .inr (.inr ⟨k, hk, rfl⟩), rfl⟩
  · rintro ⟨s, ⟨i, hi, k, hk, rfl⟩ | ⟨k, hk, rfl⟩ | ⟨k, hk, rfl⟩, rfl⟩
    · exact .inl (.inl ⟨i, hi, k, hk, by rw [Nat.mul_comm i]⟩)
    · exact .inl (.inr ⟨k, hk, by rw [Nat.mul_comm 1024]⟩)
    · exact .inr ⟨k, hk, rfl⟩

theorem WordAt.le {n s : Nat} (hn : 240 < n) (hs : WordAt n s) : s + 8 ≤ n := by
  rcases hs with ⟨i, hi, k, hk, rfl⟩ | ⟨k, hk, rfl⟩ | ⟨k, hk, rfl⟩
  · omega
  · omega
  · omega

theorem exists_wordAt {n j : Nat} (hn : 240 < n) (hj : j < n) :
    ∃ s, WordAt n s ∧ s ≤ j ∧ j < s + 8 := by
  by_cases hfull : j / 1024 < (n - 1) / 1024
  · -- in a full block
    exact ⟨_, .inl ⟨j / 1024, hfull, j % 1024 / 8, by omega, rfl⟩, by omega, by omega⟩
  · by_cases hpartial : j % 1024 / 64 < (n - 1) % 1024 / 64
    · -- in the partial block, before its last stripe begins
      exact ⟨_, .inr (.inl ⟨j % 1024 / 8, by omega, rfl⟩), by omega, by omega⟩
    · exact ⟨_, .inr (.inr ⟨(j - (n - 64)) / 8, by omega, rfl⟩), by omega, by omega⟩

/-- **Hashing reads all of its input and nothing else.** It never leaves its input or its secret. The
words that the accumulator of a long input is given are eight bytes of it each and cover it; they come
in full blocks with one scramble of all lanes behind each, a partial block and a last stripe. -/
theorem hash128_reads_input (data : Bytes) :
    (∃ digest, hash128 data = .ok digest) ∧
      (240 < data.length →
        ∃ acc, hashLongLoop initAcc data kSecret = .ok acc ∧ acc.log = longLog data ∧
          (∀ w, .word w ∈ acc.log → ∃ start, w = data.drop start ∧ start + 8 ≤ data.length) ∧
          ∀ j < data.length, ∃ start, .word (data.drop start) ∈ acc.log ∧
            start ≤ j ∧ j < start + 8) := by
  constructor
  · obtain ⟨digest, h, -⟩ := hash128_returns data
    exact ⟨digest, h⟩
  · intro hlong
    obtain ⟨acc, h, hlog⟩ := hashLongLoop_returns length_kSecret hlong initAcc
    rw [initAcc, List.nil_append] at hlog
    refine ⟨acc, h, hlog, fun w hw => ?_, fun j hj => ?_⟩
    · rw [hlog] at hw
      obtain ⟨s, hs, rfl⟩ := mem_longLog.mp hw
      exact ⟨s, rfl, hs.le hlong⟩
    · obtain ⟨s, hs, hle, hlt⟩ := exists_wordAt hlong hj
      rw [hlog]
      exact ⟨s, mem_longLog.mpr ⟨s, hs, rfl⟩, hle, hlt⟩

/-- An input of one byte more than the middle size: three stripes and the last one. -/
theorem hash128_reads_input_241 : ∃ acc,
    hashLongLoop initAcc (List.replicate 241 0) kSecret = .ok acc ∧
      acc.log = (([0, 64, 128, 177].map fun s => stripe (List.replicate (241 - s) 0)).flatten) := by
  obtain ⟨acc, h, hlog, -⟩ :=
    (hash128_reads_input (List.replicate 241 0)).2 (by rw [List.length_replicate]; decide)
  refine ⟨acc, h, hlog.trans ?_⟩
  decide +kernel

end Xxh3
