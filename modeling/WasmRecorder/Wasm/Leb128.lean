import WasmRecorder.Wasm.Instance

/-!
# LEB128

The decoders of package `leb128`. Each takes the number off the front of some bytes and returns it
with the bytes that are left.

* `decodeUint32`, `loadUint64` — at most five or ten bytes, and no bit too many in the last.
* `decodeInt32`, `decodeInt64` — `signedLoop` at the two widths. They read on to the last byte of
  the number, however far that is, and check its length then.
* `decodeInt33AsInt64` — the number of a block type. It reads five bytes at most, and does not look
  whether the fifth is the last.
* `encodeUint64`, `encodeInt64` — the encoders; those of 32 bits widen the value first.
-/

namespace Leb128

open Wasm (Bytes)

inductive Error where
  | eof
  | overflow
  deriving DecidableEq, Repr

/-- The loop of `decodeUint32`: how many bytes may follow, the shift, and the bits so far. -/
def uint32Loop : Nat → Nat → Nat → Bytes → Except Error (UInt32 × Bytes)
  | 0, _, _, _ => .error .overflow
  | _ + 1, _, _, [] => .error .eof
  | more + 1, shift, ret, b :: rest =>
    if b < 0x80 then
      -- the unused bits of the last byte must be zero
      if more = 0 ∧ 0 < b &&& 0xf0 then .error .overflow
      else .ok (UInt32.ofNat (ret ||| (b.toNat <<< shift)), rest)
    else uint32Loop more (shift + 7) (ret ||| ((b &&& 0x7f).toNat <<< shift)) rest

def decodeUint32 (bytes : Bytes) : Except Error (UInt32 × Bytes) := uint32Loop 5 0 0 bytes

/-- The loop of `LoadUint64`; `unusedBits` are the last bytes that have a bit too many. -/
def unsignedLoop (unusedBits : UInt8 → Bool) :
    Nat → Nat → Nat → Bytes → Except Error (Nat × Bytes)
  | 0, _, _, _ => .error .overflow
  | _ + 1, _, _, [] => .error .eof
  | more + 1, shift, ret, b :: rest =>
    if b < 0x80 then
      if more = 0 ∧ unusedBits b then .error .overflow
      else .ok (ret ||| (b.toNat <<< shift), rest)
    else unsignedLoop unusedBits more (shift + 7) (ret ||| ((b &&& 0x7f).toNat <<< shift)) rest

def loadUint64 (bytes : Bytes) : Except Error (UInt64 × Bytes) :=
  (unsignedLoop (1 < ·) 10 0 0 bytes).map fun x => (UInt64.ofNat x.1, x.2)

/-- The loop of the signed decoders: how many bytes have been read, and the bits so far, modulo the
width. -/
def signedLoop (width maxLen : Nat) (unused : UInt8) :
    Nat → Nat → Bytes → Except Error (Nat × Bytes)
  | _, _, [] => .error .eof
  | read, ret, b :: rest =>
    let ret := (ret ||| ((b &&& 0x7f).toNat <<< (7 * read))) % 2 ^ width
    let read := read + 1
    if b &&& 0x80 = 0 then
      let ret := if 7 * read < width ∧ b &&& 0x40 ≠ 0 then ret ||| (2 ^ width - 2 ^ (7 * read))
        else ret
      let negative := 2 ^ (width - 1) ≤ ret
      if maxLen < read then .error .overflow
      else if read = maxLen ∧ negative ∧ b &&& unused ≠ unused then .error .overflow
      else if read = maxLen ∧ ¬ negative ∧ b &&& unused ≠ 0 then .error .overflow
      else .ok (ret, rest)
    else signedLoop width maxLen unused read ret rest

/-- The number, as the bits of its two's complement. -/
def decodeInt32 (bytes : Bytes) : Except Error (UInt32 × Bytes) :=
  (signedLoop 32 5 0x30 0 0 bytes).map fun x => (UInt32.ofNat x.1, x.2)

def decodeInt64 (bytes : Bytes) : Except Error (UInt64 × Bytes) :=
  (signedLoop 64 10 0x3e 0 0 bytes).map fun x => (UInt64.ofNat x.1, x.2)

/-- The loop of `DecodeInt33AsInt64`: how many bytes may follow, how many have been read, the bits so
far and the byte read last. -/
def int33Loop : Nat → Nat → Nat → UInt8 → Bytes → Except Error (Nat × Nat × UInt8 × Bytes)
  | 0, read, ret, b, bytes => .ok (read, ret, b, bytes)
  | _ + 1, _, _, _, [] => .error .eof
  | more + 1, read, ret, _, b :: rest =>
    let ret := ret ||| ((b &&& 0x7f).toNat <<< (7 * read))
    if b &&& 0x80 = 0 then .ok (read + 1, ret, b, rest) else int33Loop more (read + 1) ret b rest

/-- What comes after the loop. -/
def int33Finish (read ret : Nat) (b : UInt8) (rest : Bytes) : Except Error (Int × Bytes) :=
  let ret := if 7 * read < 33 ∧ b &&& 0x40 = 0x40 then ret ||| ((2 ^ 33 - 1) <<< (7 * read)) else ret
  let bits : Nat := ret &&& (2 ^ 33 - 1)
  let ret : Int := if 0 < bits &&& 2 ^ 32 then (bits : Int) - 2 ^ 33 else bits
  if 5 < read then .error .overflow
  else if read = 5 ∧ ret < 0 ∧ b &&& 0x20 ≠ 0x20 then .error .overflow
  else if read = 5 ∧ 0 ≤ ret ∧ b &&& 0x20 ≠ 0 then .error .overflow
  else .ok (ret, rest)

def decodeInt33AsInt64 (bytes : Bytes) : Except Error (Int × Bytes) :=
  match int33Loop 5 0 0 0 bytes with
  | .error e => .error e
  | .ok (read, ret, b, rest) => int33Finish read ret b rest

/-- The two readings of one byte differ from `0x40` on. -/
example : decodeUint32 [0x40] = .ok (64, []) ∧ decodeInt32 [0x40] = .ok (0xffffffc0, []) := by
  decide +kernel

/-! ### Encoders -/

theorem and_low (n : Nat) : n &&& 0x7f = n % 128 := Nat.and_two_pow_sub_one_eq_mod n 7

theorem toNat_low (value : UInt64) : (value &&& 0x7f).toUInt8.toNat = value.toNat % 128 := by
  rw [UInt64.toNat_toUInt8, UInt64.toNat_and]
  change (value.toNat &&& 127) % 256 = value.toNat % 128
  rw [and_low]
  omega

theorem toNat_shift (value : UInt64) : (value >>> 7).toNat = value.toNat / 128 := by
  rw [UInt64.toNat_shiftRight]
  exact Nat.shiftRight_eq_div_pow _ 7

theorem high_bit (b : UInt8) : b &&& 0x80 = 0 ↔ b.toNat < 128 := by
  have h : ∀ n < 256, n &&& 128 = 0 ↔ n < 128 := by decide +kernel
  rw [← UInt8.toNat_inj, UInt8.toNat_and]
  exact h b.toNat b.toNat_lt

theorem toNat_or_high {b : UInt8} (hb : b.toNat < 128) : (b ||| 0x80).toNat = b.toNat + 128 := by
  have h : ∀ n < 128, n ||| 128 = n + 128 := by decide +kernel
  rw [UInt8.toNat_or]
  exact h b.toNat hb

/-- The encoders look at the bit they have just set. -/
theorem flag_iff {p : Prop} [Decidable p] {b : UInt8} (hb : b.toNat < 128) :
    (if p then b ||| 0x80 else b) &&& 0x80 = 0 ↔ ¬ p := by
  rw [high_bit]
  split_ifs with hp
  · rw [toNat_or_high hb]
    exact iff_of_false (by omega) (not_not.mpr hp)
  · exact iff_of_true hb hp

theorem low_lt (value : UInt64) : (value &&& 0x7f).toUInt8.toNat < 128 := by
  rw [toNat_low]
  omega

def encodeUint64 (value : UInt64) : Bytes :=
  let b := (value &&& 0x7f).toUInt8
  let value' := value >>> 7
  let b := if value' ≠ 0 then b ||| 0x80 else b
  if b &&& 0x80 = 0 then [b] else b :: encodeUint64 value'
termination_by value.toNat
decreasing_by
  rename_i h
  have hne : value >>> 7 ≠ 0 := not_not.mp (mt (flag_iff (low_lt value)).mpr h)
  rw [Ne, ← UInt64.toNat_inj, toNat_shift] at hne
  rw [toNat_shift]
  change value.toNat / 128 ≠ 0 at hne
  omega

def encodeUint32 (value : UInt32) : Bytes := encodeUint64 value.toUInt64

theorem toInt_eq (value : Int64) :
    value.toInt = if value.toUInt64.toNat < 2 ^ 63 then (value.toUInt64.toNat : Int)
      else value.toUInt64.toNat - 2 ^ 64 := by
  have h := BitVec.toInt_eq_toNat_cond value.toBitVec
  change value.toInt = _ at h
  rw [h]
  change (if 2 * value.toUInt64.toNat < 2 ^ 64 then (value.toUInt64.toNat : Int)
    else value.toUInt64.toNat - 2 ^ 64) = _
  split_ifs <;> omega

theorem toInt_shift (value : Int64) : (value >>> 7).toInt = value.toInt / 128 := by
  change ((value >>> 7).toBitVec).toInt = _
  rw [Int64.toBitVec_shiftRight, BitVec.toInt_sshiftRight']
  exact Int.shiftRight_eq_div_pow value.toInt 7

theorem shift_eq_zero_iff (value : Int64) : value >>> 7 = 0 ↔ value.toInt / 128 = 0 := by
  rw [← Int64.toInt_inj, toInt_shift]
  rfl

theorem shift_eq_neg_one_iff (value : Int64) : value >>> 7 = -1 ↔ value.toInt / 128 = -1 := by
  rw [← Int64.toInt_inj, toInt_shift]
  rfl

theorem toNat_low_signed (value : Int64) :
    ((value &&& 0x7f).toUInt64.toUInt8.toNat : Int) = value.toInt % 128 := by
  have h : (value &&& 0x7f).toUInt64 = value.toUInt64 &&& 0x7f := rfl
  rw [h, toNat_low, toInt_eq]
  split_ifs <;> omega

/-- The bit that a signed number is extended by. -/
theorem sign_bit (value : Int64) :
    (value &&& 0x40).toUInt64.toUInt8 = 0 ↔ value.toInt % 128 < 64 := by
  have hbit : ∀ n < 128, n &&& 64 = 0 ↔ n < 64 := by decide +kernel
  have h : (value &&& 0x40).toUInt64 = (value.toUInt64 &&& 0x7f) &&& 0x40 := by
    rw [UInt64.and_assoc]
    rfl
  rw [h, UInt64.toUInt8_and, ← UInt8.toNat_inj, UInt8.toNat_and, toNat_low]
  change value.toUInt64.toNat % 128 &&& 64 = 0 ↔ _
  rw [hbit _ (Nat.mod_lt _ (by omega)), toInt_eq]
  split_ifs <;> omega

/-- The sign bit and what is left tell whether the number needs another byte. -/
theorem more_iff (value : Int64) :
    ((value >>> 7 ≠ -1 ∨ (value &&& 0x40).toUInt64.toUInt8 = 0) ∧
      (value >>> 7 ≠ 0 ∨ (value &&& 0x40).toUInt64.toUInt8 ≠ 0)) ↔
    ¬ (-64 ≤ value.toInt ∧ value.toInt < 64) := by
  rw [Ne, Ne, Ne, shift_eq_neg_one_iff, shift_eq_zero_iff, sign_bit]
  omega

def encodeInt64 (value : Int64) : Bytes :=
  let b := (value &&& 0x7f).toUInt64.toUInt8
  let s := (value &&& 0x40).toUInt64.toUInt8
  let value' := value >>> 7
  let b := if (value' ≠ -1 ∨ s = 0) ∧ (value' ≠ 0 ∨ s ≠ 0) then b ||| 0x80 else b
  if b &&& 0x80 = 0 then [b] else b :: encodeInt64 value'
termination_by value.toInt.natAbs
decreasing_by
  rename_i h
  have hmore := not_not.mp (mt (flag_iff (low_lt value.toUInt64)).mpr h)
  rw [more_iff] at hmore
  rw [toInt_shift]
  omega

def encodeInt32 (value : Int32) : Bytes := encodeInt64 value.toInt64

end Leb128
