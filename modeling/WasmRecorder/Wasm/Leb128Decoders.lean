import WasmRecorder.Lib.Varint
import WasmRecorder.Wasm.Leb128

/-!
# What the signed LEB128 decoders accept

The signed decoders gather the bits of a number in a word and look at its length, its sign and some
bits of its last byte when they are done. Every encoding of a number in range is read as that number.
The converse fails: of the last byte of a number of the most bytes, bit 6 is not looked at, and the
decoder of block types takes the fifth byte for the last whether it goes on or not.

* `signedLoop_terminated`, `decodeInt33AsInt64_eq` — what the decoders make of a number: its bits,
  if the last byte passes the checks.
* `Decoder.decode_exact_iff` — a decoder accepts exactly the encodings in range and returns their
  numbers, but for the byte strings that are `Decoder.Lax`.
-/

namespace Leb128

open Wasm (Bytes)
open Varint

/-! ### Bits and numbers -/

theorem toNat_low_byte (b : UInt8) : (b &&& 0x7f).toNat = b.toNat % 128 := by
  rw [UInt8.toNat_and]
  exact and_low b.toNat

/-! ### The loops -/

variable {init : Bytes}

/-- The bytes that go on add their bits. -/
theorem signedLoop_more (width maxLen : Nat) (unused : UInt8) (hmore : ∀ c ∈ init, 128 ≤ c.toNat)
    {read r : Nat} (hr : r < 2 ^ (7 * read)) (bytes : Bytes) :
    signedLoop width maxLen unused read (r % 2 ^ width) (init ++ bytes) =
      signedLoop width maxLen unused (read + init.length)
        ((r + payload init * 2 ^ (7 * read)) % 2 ^ width) bytes := by
  induction init generalizing read r with
  | nil => simp [payload]
  | cons c init ih =>
    obtain ⟨hc, hinit⟩ := List.forall_mem_cons.mp hmore
    have hdigit : c.toNat % 128 < 128 := Nat.mod_lt _ (by omega)
    rw [List.cons_append, signedLoop]
    simp only [if_neg (mt (high_bit c).mp (not_lt.mpr hc))]
    have hbits : r + c.toNat % 128 * 2 ^ (7 * read) + payload init * 2 ^ (7 * (read + 1)) =
        r + payload (c :: init) * 2 ^ (7 * read) := by
      rw [payload, Nat.mul_succ, pow_add]
      ring
    rw [or_mod, toNat_low_byte, or_shiftLeft hr, ih hinit (add_mul_lt hr hdigit), hbits,
      List.length_cons, Nat.add_right_comm read, Nat.add_assoc]

theorem signedLoop_eof (width maxLen : Nat) (unused : UInt8) {bytes : Bytes}
    (hmore : ∀ c ∈ bytes, 128 ≤ c.toNat) :
    signedLoop width maxLen unused 0 0 bytes = .error .eof := by
  have h := signedLoop_more width maxLen unused hmore (show 0 < 2 ^ (7 * 0) by simp) []
  rw [List.append_nil, Nat.zero_mod] at h
  rw [h, signedLoop]

/-- The last bytes that the signed decoders take for the sign of a number, when the number has the
most bytes: bits `k` to 5 are the same. -/
def Agree (k : Nat) (b : UInt8) : Prop := b.toNat % 64 < 2 ^ k ∨ 64 ≤ b.toNat % 64 + 2 ^ k

instance (k : Nat) (b : UInt8) : Decidable (Agree k b) := inferInstanceAs (Decidable (_ ∨ _))

/-- The mask `unused` holds the bits from `k + 1` to 5. -/
def Masks (k : Nat) (unused : UInt8) : Prop := ∀ b : UInt8,
  (2 ^ k ≤ b.toNat % 2 ^ (k + 1) ∧ b &&& unused ≠ unused ∨
    ¬ 2 ^ k ≤ b.toNat % 2 ^ (k + 1) ∧ b &&& unused ≠ 0) ↔ ¬ Agree k b

theorem sign_byte (b : UInt8) : b &&& 0x40 ≠ 0 ↔ 64 ≤ b.toNat % 128 := by
  have h : ∀ n < 256, n &&& 64 ≠ 0 ↔ 64 ≤ n % 128 := by decide +kernel
  rw [Ne, ← UInt8.toNat_inj, UInt8.toNat_and]
  exact h b.toNat b.toNat_lt

variable {b : UInt8}

/-- The sign of the number that is made of the most bytes. -/
theorem negative_iff {j k : Nat} (hlen : init.length = j) (hk : k ≤ 6) :
    2 ^ (7 * j + k) ≤ (value init b % 2 ^ (7 * j + k + 1)).toNat ↔
      2 ^ k ≤ b.toNat % 2 ^ (k + 1) := by
  subst hlen
  have hb := b.toNat_lt
  have hlow : 0 ≤ (payload init : Int) := Int.natCast_nonneg _
  have hhigh : (payload init : Int) < 128 ^ init.length := by
    exact_mod_cast Varint.payload_lt init
  have hplace : (2 : Int) ^ (7 * init.length) = 128 ^ init.length := by
    rw [pow_mul]
    rfl
  have hdigit : digit b % 2 ^ (k + 1) = ((b.toNat % 2 ^ (k + 1) : Nat) : Int) := by
    have hdvd : (2 : Int) ^ (k + 1) ∣ 128 := pow_dvd_pow 2 (show k + 1 ≤ 7 by omega)
    rw [Int.natCast_emod, Nat.cast_pow]
    refine Int.emod_emod_of_dvd _ hdvd |>.symm.trans ?_
    rw [show digit b % 128 = b.toNat % 128 by rw [digit]; split_ifs <;> omega]
    exact Int.emod_emod_of_dvd _ hdvd
  have hwidth : (2 : Int) ^ (7 * init.length + k + 1) = 2 ^ (k + 1) * 128 ^ init.length := by
    rw [← hplace, ← pow_add]
    ring_nf
  have hhalf : (2 : Int) ^ (7 * init.length + k) = 2 ^ k * 128 ^ init.length := by
    rw [← hplace, ← pow_add]
    ring_nf
  have hbits : (0 : Int) ≤ value init b % 2 ^ (7 * init.length + k + 1) :=
    Int.emod_nonneg _ (by positivity)
  rw [← Int.ofNat_le, Int.toNat_of_nonneg hbits, Nat.cast_pow, Nat.cast_ofNat, hhalf, hwidth, value,
    add_mul_emod hlow hhigh _ (by positivity), mul_le_add_mul_iff hlow hhigh, hdigit]
  norm_cast

/-- The bits that the loop ends with. -/
theorem signedBits_eq (w : Nat) (hb : b.toNat < 128) :
    (if 7 * (init.length + 1) < w ∧ b &&& 0x40 ≠ 0 then
      (payload init + b.toNat % 128 * 2 ^ (7 * init.length)) % 2 ^ w |||
        (2 ^ w - 2 ^ (7 * (init.length + 1)))
    else (payload init + b.toNat % 128 * 2 ^ (7 * init.length)) % 2 ^ w) =
      (value init b % 2 ^ w).toNat := by
  have hbits := add_mul_lt (payload_lt_two_pow init) (Nat.mod_lt b.toNat (show 0 < 128 by omega))
  rw [signExtend_eq (show _ < 2 ^ (7 * (init.length + 1)) from hbits), value_eq hb]
  simp only [sign_byte, Nat.mod_eq_of_lt hb]

theorem Masks.value_iff {k : Nat} {unused : UInt8} (hmasks : Masks k unused) (hk : k ≤ 6)
    {j : Nat} (hlen : init.length = j) :
    (2 ^ (7 * j + k) ≤ (value init b % 2 ^ (7 * j + k + 1)).toNat ∧ b &&& unused ≠ unused ∨
      ¬ 2 ^ (7 * j + k) ≤ (value init b % 2 ^ (7 * j + k + 1)).toNat ∧ b &&& unused ≠ 0) ↔
    ¬ Agree k b := by
  rw [negative_iff hlen hk]
  exact hmasks b

/-- What the checks at the end of a signed decoder come to. -/
theorem overflow_checks {α : Type} {read maxLen : Nat} {negative ones zeros agree : Prop}
    [Decidable negative] [Decidable ones] [Decidable zeros] [Decidable agree]
    (hmask : read = maxLen → ((negative ∧ ones ∨ ¬ negative ∧ zeros) ↔ ¬ agree))
    (x : Except Error α) :
    (if maxLen < read then .error .overflow
      else if read = maxLen ∧ negative ∧ ones then .error .overflow
      else if read = maxLen ∧ ¬ negative ∧ zeros then .error .overflow
      else x) = if read < maxLen ∨ read = maxLen ∧ agree then x else .error .overflow := by
  rcases lt_trichotomy read maxLen with hlt | heq | hgt
  · rw [if_neg (by omega), if_neg (fun h => hlt.ne h.1), if_neg (fun h => hlt.ne h.1),
      if_pos (.inl hlt)]
  · have hmask := hmask heq
    rw [if_neg (by omega)]
    by_cases hagree : agree
    · have hnone := not_or.mp (mt hmask.mp (not_not.mpr hagree))
      rw [if_neg (fun h => hnone.1 h.2), if_neg (fun h => hnone.2 h.2), if_pos (.inr ⟨heq, hagree⟩)]
    · have hfail : ¬ (read < maxLen ∨ read = maxLen ∧ agree) := by simp [heq, hagree]
      rcases hmask.mpr hagree with h | h
      · rw [if_pos ⟨heq, h⟩, if_neg hfail]
      · rw [if_neg (fun h' => h.1 h'.2.1), if_pos ⟨heq, h⟩, if_neg hfail]
  · rw [if_pos hgt, if_neg (by omega)]

theorem signedLoop_terminated {j k : Nat} {unused : UInt8} (hmasks : Masks k unused) (hk : k ≤ 6)
    (hterm : Terminated init b) (rest : Bytes) :
    signedLoop (7 * j + k + 1) (j + 1) unused 0 0 (init ++ b :: rest) =
      if init.length < j ∨ init.length = j ∧ Agree k b then
        .ok ((value init b % 2 ^ (7 * j + k + 1)).toNat, rest)
      else .error .overflow := by
  have hmore := signedLoop_more (7 * j + k + 1) (j + 1) unused hterm.more
    (show 0 < 2 ^ (7 * 0) by simp) (b :: rest)
  rw [Nat.zero_mod, Nat.zero_add, Nat.zero_add, Nat.mul_zero, pow_zero, Nat.mul_one] at hmore
  rw [hmore, signedLoop]
  simp only [if_pos ((high_bit b).mpr hterm.last)]
  rw [or_mod, toNat_low_byte, or_shiftLeft (payload_lt_two_pow init), signedBits_eq _ hterm.last,
    Nat.add_sub_cancel]
  rw [overflow_checks (fun heq => hmasks.value_iff hk (Nat.succ_inj.mp heq))]
  exact if_congr (or_congr Nat.add_lt_add_iff_right (and_congr_left' Nat.succ_inj)) rfl rfl

theorem masks_of_toNat {k : Nat} {unused : UInt8} (h : ∀ n < 256,
    (2 ^ k ≤ n % 2 ^ (k + 1) ∧ n &&& unused.toNat ≠ unused.toNat ∨
      ¬ 2 ^ k ≤ n % 2 ^ (k + 1) ∧ n &&& unused.toNat ≠ 0) ↔
      ¬ (n % 64 < 2 ^ k ∨ 64 ≤ n % 64 + 2 ^ k)) : Masks k unused := by
  intro b
  rw [Ne, Ne, ← UInt8.toNat_inj, ← UInt8.toNat_inj, UInt8.toNat_and]
  exact h b.toNat b.toNat_lt

theorem masks_int32 : Masks 3 0x30 := masks_of_toNat (by decide +kernel)

theorem masks_int33 : Masks 4 0x20 := masks_of_toNat (by decide +kernel)

theorem masks_int64 : Masks 0 0x3e := masks_of_toNat (by decide +kernel)

/-- The loop for block types stops at a byte that does not go on, and after the fifth. -/
theorem int33Loop_eq (hmore : ∀ c ∈ init, 128 ≤ c.toNat) {more : Nat} (hlen : init.length < more)
    (hlast : b.toNat < 128 ∨ init.length + 1 = more) {read r : Nat} (hr : r < 2 ^ (7 * read))
    (b' : UInt8) (rest : Bytes) :
    int33Loop more read r b' (init ++ b :: rest) = .ok (read + (init.length + 1),
      r + (payload init + b.toNat % 128 * 2 ^ (7 * init.length)) * 2 ^ (7 * read), b, rest) := by
  induction init generalizing more read r b' with
  | nil =>
    obtain ⟨more, rfl⟩ := Nat.exists_eq_add_of_lt hlen
    rw [List.nil_append, List.length_nil, Nat.zero_add, int33Loop, toNat_low_byte, or_shiftLeft hr]
    by_cases hb : b.toNat < 128
    · simp [if_pos ((high_bit b).mpr hb), payload]
    · obtain rfl : more = 0 := by
        simp only [List.length_nil] at hlast
        omega
      simp [payload, int33Loop]
  | cons c init ih =>
    obtain ⟨hc, hinit⟩ := List.forall_mem_cons.mp hmore
    have hdigit : c.toNat % 128 < 128 := Nat.mod_lt _ (by omega)
    rw [List.length_cons] at hlen hlast
    obtain ⟨more, rfl⟩ := Nat.exists_eq_add_of_lt (Nat.lt_of_succ_lt hlen)
    rw [List.cons_append, int33Loop]
    simp only [if_neg (mt (high_bit c).mp (not_lt.mpr hc))]
    rw [toNat_low_byte, or_shiftLeft hr, ih hinit (by omega) (by omega) (add_mul_lt hr hdigit),
      List.length_cons, payload]
    congr 2
    · omega
    · congr 1
      rw [Nat.mul_succ, Nat.mul_succ, pow_add, pow_add]
      ring

theorem int33Loop_eof {bytes : Bytes} (hmore : ∀ c ∈ bytes, 128 ≤ c.toNat) {more : Nat}
    (hlen : bytes.length < more) (read r : Nat) (b : UInt8) :
    int33Loop more read r b bytes = .error .eof := by
  induction bytes generalizing more read r b with
  | nil =>
    obtain ⟨more, rfl⟩ := Nat.exists_eq_add_of_lt hlen
    rw [List.length_nil, Nat.zero_add, int33Loop]
  | cons c bytes ih =>
    obtain ⟨hc, hbytes⟩ := List.forall_mem_cons.mp hmore
    rw [List.length_cons] at hlen
    obtain ⟨more, rfl⟩ := Nat.exists_eq_add_of_lt (Nat.lt_of_succ_lt hlen)
    rw [int33Loop]
    simp only [if_neg (mt (high_bit c).mp (not_lt.mpr hc))]
    exact ih hbytes (by omega) _ _ _

/-- The bits that a block type has after its sign extension. -/
theorem int33Bits_eq (hlen : init.length ≤ 4) (hlast : b.toNat < 128 ∨ init.length = 4) :
    ((if 7 * (init.length + 1) < 33 ∧ b &&& 0x40 = 0x40 then
      payload init + b.toNat % 128 * 2 ^ (7 * init.length) |||
        ((2 ^ 33 - 1) <<< (7 * (init.length + 1)))
    else payload init + b.toNat % 128 * 2 ^ (7 * init.length)) &&& (2 ^ 33 - 1)) =
      (value init b % 2 ^ 33).toNat := by
  rw [Nat.and_two_pow_sub_one_eq_mod]
  have hsign : b &&& 0x40 = 0x40 ↔ b &&& 0x40 ≠ 0 := by
    have h : ∀ n < 256, n &&& 64 = 64 ↔ n &&& 64 ≠ 0 := by decide +kernel
    rw [Ne, ← UInt8.toNat_inj, ← UInt8.toNat_inj, UInt8.toNat_and]
    exact h b.toNat b.toNat_lt
  rcases Nat.lt_or_ge init.length 4 with hlt | hge
  · have hshift : ((2 ^ 33 - 1) <<< (7 * (init.length + 1))) % 2 ^ 33 =
        2 ^ 33 - 2 ^ (7 * (init.length + 1)) := by
      have h : ∀ n < 4, ((2 ^ 33 - 1) <<< (7 * (n + 1))) % 2 ^ 33 = 2 ^ 33 - 2 ^ (7 * (n + 1)) := by
        decide +kernel
      exact h _ hlt
    rw [← signedBits_eq 33 (hlast.resolve_right hlt.ne)]
    simp only [hsign]
    split_ifs
    · rw [Nat.or_mod_two_pow, hshift]
    · rfl
  · obtain hfour : init.length = 4 := by omega
    rw [if_neg (by omega), value, hfour, digit]
    have hb := b.toNat_lt
    split_ifs <;> omega

/-- What a decoder that has read the bytes makes of them. -/
theorem int33Finish_eq (hlen : init.length ≤ 4) (hlast : b.toNat < 128 ∨ init.length = 4)
    (rest : Bytes) :
    int33Finish (init.length + 1) (payload init + b.toNat % 128 * 2 ^ (7 * init.length)) b rest =
      if init.length < 4 ∨ init.length = 4 ∧ Agree 4 b then .ok ((value init b).bmod (2 ^ 33), rest)
      else .error .overflow := by
  have hbits : (value init b % 2 ^ 33).toNat < 2 ^ 33 := by omega
  have hsign : 0 < (value init b % 2 ^ 33).toNat &&& 2 ^ 32 ↔
      2 ^ 32 ≤ (value init b % 2 ^ 33).toNat := by
    rw [Nat.and_two_pow]
    by_cases hle : 2 ^ 32 ≤ (value init b % 2 ^ 33).toNat
    · rw [Nat.testBit_of_two_pow_le_and_two_pow_add_one_gt hle hbits]
      exact iff_of_true (by decide) hle
    · rw [Nat.testBit_lt_two_pow (not_le.mp hle)]
      exact iff_of_false (by decide) hle
  have hvalue : (if 0 < (value init b % 2 ^ 33).toNat &&& 2 ^ 32 then
      ((value init b % 2 ^ 33).toNat : Int) - 2 ^ 33 else (value init b % 2 ^ 33).toNat) =
        (value init b).bmod (2 ^ 33) := by
    rw [Int.bmod_def]
    simp only [hsign]
    split_ifs <;> omega
  have hnegative : (value init b).bmod (2 ^ 33) < 0 ↔
      2 ^ 32 ≤ (value init b % 2 ^ 33).toNat := by
    rw [Int.bmod_def]
    split_ifs <;> omega
  rw [int33Finish]
  simp only [int33Bits_eq hlen hlast, hvalue, ← not_lt (b := (0 : Int)), hnegative]
  rw [overflow_checks (fun heq => masks_int33.value_iff (by omega) (Nat.succ_inj.mp heq))]
  exact if_congr (or_congr Nat.add_lt_add_iff_right (and_congr_left' Nat.succ_inj)) rfl rfl

theorem decodeInt33AsInt64_eq (hmore : ∀ c ∈ init, 128 ≤ c.toNat) (hlen : init.length ≤ 4)
    (hlast : b.toNat < 128 ∨ init.length = 4) (rest : Bytes) :
    decodeInt33AsInt64 (init ++ b :: rest) =
      if init.length < 4 ∨ init.length = 4 ∧ Agree 4 b then .ok ((value init b).bmod (2 ^ 33), rest)
      else .error .overflow := by
  have hloop := int33Loop_eq hmore (show init.length < 5 by omega)
    (hlast.imp_right (congrArg (· + 1)))
    (show 0 < 2 ^ (7 * 0) by simp) 0 rest
  rw [Nat.zero_add, Nat.zero_add, Nat.mul_zero, pow_zero, Nat.mul_one] at hloop
  rw [decodeInt33AsInt64, hloop]
  exact int33Finish_eq hlen hlast rest

/-! ### What the decoders accept -/

theorem toInt_ofNat_emod (w : Nat) (n : Int) :
    (BitVec.ofNat w (n % 2 ^ w).toNat).toInt = n.bmod (2 ^ w) := by
  rw [BitVec.toInt_eq_toNat_bmod, BitVec.toNat_ofNat, Int.natCast_emod, Int.emod_bmod,
    Int.toNat_of_nonneg (Int.emod_nonneg _ (by positivity))]
  exact_mod_cast Int.emod_bmod n (2 ^ w)

/-- A number of the most bytes is in range if its last digit is. -/
theorem value_inRange_iff (hterm : Terminated init b) {j k : Nat} (hk : k ≤ 6)
    (hlen : init.length ≤ j) :
    -2 ^ (7 * j + k) ≤ value init b ∧ value init b < 2 ^ (7 * j + k) ↔
      init.length < j ∨ b.toNat < 2 ^ k ∨ 128 ≤ b.toNat + 2 ^ k := by
  have hb := hterm.last
  have hlow : 0 ≤ (payload init : Int) := Int.natCast_nonneg _
  have hhigh : (payload init : Int) < 128 ^ init.length := by
    exact_mod_cast Varint.payload_lt init
  have hspare : 2 ^ k ≤ 2 ^ 6 := Nat.pow_le_pow_right (by omega) hk
  have hcast : ((2 ^ k : Nat) : Int) = 2 ^ k := Nat.cast_pow 2 k
  have hdigit : -64 ≤ digit b ∧ digit b < 64 ∧
      (-2 ^ k ≤ digit b ∧ digit b < 2 ^ k ↔ b.toNat < 2 ^ k ∨ 128 ≤ b.toNat + 2 ^ k) := by
    rw [digit]
    split_ifs <;> omega
  rcases hlen.lt_or_eq with hlt | rfl
  · have hle : (2 : Int) ^ 6 * 128 ^ init.length ≤ 2 ^ (7 * j + k) := by
      rw [← two_pow_place]
      exact pow_le_pow_right₀ (by omega) (by omega)
    have hmin := (mul_le_add_mul_iff hlow hhigh).mpr hdigit.1
    have hmax := mt (mul_le_add_mul_iff hlow hhigh).mp (not_le.mpr hdigit.2.1)
    exact iff_of_true (by rw [value]; omega) (.inl hlt)
  · rw [two_pow_place, ← neg_mul, value, mul_le_add_mul_iff hlow hhigh, ← not_le,
      mul_le_add_mul_iff hlow hhigh, not_le, hdigit.2.2]
    exact (or_iff_right (lt_irrefl _)).symm

inductive Decoder where
  | int32
  | int33
  | int64
  deriving DecidableEq, Repr

namespace Decoder

def width : Decoder → Nat
  | int32 => 32
  | int33 => 33
  | int64 => 64

def maxLen (d : Decoder) : Nat := (d.width + 6) / 7

/-- The decoder, with its result as a number. -/
def decode : Decoder → Bytes → Except Error (Int × Bytes)
  | int32, bytes => (decodeInt32 bytes).map fun x => (x.1.toInt32.toInt, x.2)
  | int33, bytes => decodeInt33AsInt64 bytes
  | int64, bytes => (decodeInt64 bytes).map fun x => (x.1.toInt64.toInt, x.2)

/-- The bytes start with an encoding of a number, and the rest follows. -/
def Encodes (d : Decoder) (bytes : Bytes) (n : Int) (rest : Bytes) : Prop :=
  ∃ enc, bytes = enc ++ rest ∧ Varint.signed enc = some n ∧ enc.length ≤ d.maxLen ∧
    -2 ^ (d.width - 1) ≤ n ∧ n < 2 ^ (d.width - 1)

/-- How many bits of the last byte are the number's, besides its sign. -/
def spare (d : Decoder) : Nat := (d.width - 1) % 7

/-- The byte strings for which a decoder's checks are too lax: all but one of the most bytes go on,
and the next has its bit 6 unlike the bits below it, which are all the same; or a block type's fifth
byte goes on. -/
def Lax (d : Decoder) (bytes : Bytes) : Prop :=
  ∃ init b rest, bytes = init ++ b :: rest ∧ init.length + 1 = d.maxLen ∧
    (∀ c ∈ init, 128 ≤ c.toNat) ∧
    (64 ≤ b.toNat + 2 ^ d.spare ∧ b.toNat < 64 + 2 ^ d.spare ∨
      d = int33 ∧ 128 ≤ b.toNat ∧ Agree d.spare b)

theorem decode_terminated (d : Decoder) {init : Bytes} {b : UInt8} (hterm : Terminated init b)
    (hlen : init.length < d.maxLen) (rest : Bytes) :
    d.decode (init ++ b :: rest) =
      if init.length + 1 < d.maxLen ∨ init.length + 1 = d.maxLen ∧ Agree d.spare b then
        .ok ((value init b).bmod (2 ^ d.width), rest)
      else .error .overflow := by
  cases d with
  | int32 =>
    have h := signedLoop_terminated (j := 4) masks_int32 (by omega) hterm rest
    change ((signedLoop 32 5 0x30 0 0 (init ++ b :: rest)).map _).map _ = _
    rw [h, apply_ite (Except.map _), apply_ite (Except.map _)]
    refine if_congr (or_congr Nat.succ_lt_succ_iff.symm (and_congr_left' Nat.succ_inj.symm)) ?_ rfl
    exact congrArg (fun n => Except.ok (n, rest)) (toInt_ofNat_emod 32 (value init b))
  | int33 =>
    refine (decodeInt33AsInt64_eq hterm.more (Nat.le_of_lt_succ hlen) (.inl hterm.last) rest).trans ?_
    exact if_congr (or_congr Nat.succ_lt_succ_iff.symm (and_congr_left' Nat.succ_inj.symm)) rfl rfl
  | int64 =>
    have h := signedLoop_terminated (j := 9) masks_int64 (by omega) hterm rest
    change ((signedLoop 64 10 0x3e 0 0 (init ++ b :: rest)).map _).map _ = _
    rw [h, apply_ite (Except.map _), apply_ite (Except.map _)]
    refine if_congr (or_congr Nat.succ_lt_succ_iff.symm (and_congr_left' Nat.succ_inj.symm)) ?_ rfl
    exact congrArg (fun n => Except.ok (n, rest)) (toInt_ofNat_emod 64 (value init b))

/-- A number of the most bytes is in range if its last digit is. -/
theorem inRange_iff (d : Decoder) {init : Bytes} {b : UInt8} (hterm : Terminated init b)
    (hlen : init.length < d.maxLen) :
    -2 ^ (d.width - 1) ≤ value init b ∧ value init b < 2 ^ (d.width - 1) ↔
      init.length + 1 < d.maxLen ∨ b.toNat < 2 ^ d.spare ∨ 128 ≤ b.toNat + 2 ^ d.spare := by
  have hwidth : d.width - 1 = 7 * (d.maxLen - 1) + d.spare := by cases d <;> rfl
  have hspare : d.spare ≤ 6 := by cases d <;> decide
  rw [hwidth, value_inRange_iff hterm hspare (by omega)]
  omega

theorem encodes_iff (d : Decoder) {init : Bytes} {b : UInt8} (hterm : Terminated init b)
    {rest rest' : Bytes} {n : Int} : d.Encodes (init ++ b :: rest) n rest' ↔
      rest' = rest ∧ n = value init b ∧ init.length < d.maxLen ∧
        -2 ^ (d.width - 1) ≤ value init b ∧ value init b < 2 ^ (d.width - 1) := by
  constructor
  · rintro ⟨enc, heq, hn, hlen, hrange⟩
    obtain ⟨init', b', hterm', rfl, rfl⟩ := Varint.signed_iff.mp hn
    rw [List.append_assoc, List.singleton_append] at heq
    obtain ⟨rfl, rfl, rfl⟩ := hterm.unique hterm' heq
    rw [List.length_append] at hlen
    exact ⟨rfl, rfl, hlen, hrange⟩
  · rintro ⟨rfl, rfl, hlen, hrange⟩
    refine ⟨init ++ [b], by simp, Varint.signed_iff.mpr ⟨init, b, hterm, rfl, rfl⟩, ?_, hrange⟩
    rw [List.length_append]
    exact hlen

theorem mem_take_of_lt {init : Bytes} {b : UInt8} {n : Nat} (h : init.length < n) (rest : Bytes) :
    b ∈ (init ++ b :: rest).take n := by
  rw [List.take_append, List.take_of_length_le h.le]
  obtain ⟨m, hm⟩ := Nat.exists_eq_add_of_lt h
  rw [show n - init.length = m + 1 by omega, List.take_succ_cons]
  simp

theorem not_encodes {d : Decoder} {bytes : Bytes}
    (hmore : ∀ c ∈ bytes.take d.maxLen, 128 ≤ c.toNat) (n : Int) (rest : Bytes) :
    ¬ d.Encodes bytes n rest := by
  rintro ⟨enc, rfl, hn, hlen, -⟩
  obtain ⟨init, b, hterm, rfl, -⟩ := Varint.signed_iff.mp hn
  rw [List.length_append] at hlen
  rw [List.append_assoc] at hmore
  exact absurd (hmore b (mem_take_of_lt hlen rest)) (not_le.mpr hterm.last)

/-- Without a last byte among the most bytes, only the decoder of block types may succeed. -/
theorem decode_more {d : Decoder} {bytes : Bytes} (hd : d ≠ int33)
    (hmore : ∀ c ∈ bytes.take d.maxLen, 128 ≤ c.toNat) : ∃ e, d.decode bytes = .error e := by
  rcases Varint.exists_split bytes with ⟨init, b, rest, hterm, rfl⟩ | hall
  · have hlong : d.maxLen ≤ init.length := by
      by_contra hlt
      exact absurd (hmore b (mem_take_of_lt (not_le.mp hlt) rest)) (not_le.mpr hterm.last)
    refine ⟨.overflow, ?_⟩
    cases d with
    | int33 => exact absurd rfl hd
    | int32 =>
      have h := signedLoop_terminated (j := 4) masks_int32 (by omega) hterm rest
      rw [if_neg (by have : 5 ≤ init.length := hlong; omega)] at h
      rw [decode, decodeInt32, h]
      rfl
    | int64 =>
      have h := signedLoop_terminated (j := 9) masks_int64 (by omega) hterm rest
      rw [if_neg (by have : 10 ≤ init.length := hlong; omega)] at h
      rw [decode, decodeInt64, h]
      rfl
  · refine ⟨.eof, ?_⟩
    cases d with
    | int33 => exact absurd rfl hd
    | int32 =>
      rw [decode, decodeInt32, signedLoop_eof 32 5 0x30 hall]
      rfl
    | int64 =>
      rw [decode, decodeInt64, signedLoop_eof 64 10 0x3e hall]
      rfl

theorem two_pow_spare_le (d : Decoder) : 2 ^ d.spare ≤ 16 := by cases d <;> decide

theorem bmod_of_inRange (d : Decoder) {n : Int}
    (h : -2 ^ (d.width - 1) ≤ n ∧ n < 2 ^ (d.width - 1)) : n.bmod (2 ^ d.width) = n := by
  have hwidth : ((2 ^ d.width : Nat) : Int) = 2 ^ (d.width - 1) * 2 := by cases d <;> rfl
  exact Int.bmod_eq_of_le_mul_two (by omega) (by omega)

/-- The most bytes hold a last one, or all go on. -/
theorem split_most (d : Decoder) (bytes : Bytes) :
    (∃ init b rest, Terminated init b ∧ init.length < d.maxLen ∧ bytes = init ++ b :: rest) ∨
      ∀ c ∈ bytes.take d.maxLen, 128 ≤ c.toNat := by
  rcases Varint.exists_split bytes with ⟨init, b, rest, hterm, rfl⟩ | hall
  · rcases lt_or_ge init.length d.maxLen with hlt | hge
    · exact .inl ⟨init, b, rest, hterm, hlt, rfl⟩
    · rw [List.take_append_of_le_length hge]
      exact .inr fun c hc => hterm.more c (List.mem_of_mem_take hc)
  · exact .inr fun c hc => hall c (List.mem_of_mem_take hc)

theorem lax_terminated (d : Decoder) {init : Bytes} {b : UInt8} (hterm : Terminated init b)
    (hlen : init.length < d.maxLen) (rest : Bytes) : d.Lax (init ++ b :: rest) ↔
      init.length + 1 = d.maxLen ∧ 64 ≤ b.toNat + 2 ^ d.spare ∧ b.toNat < 64 + 2 ^ d.spare := by
  constructor
  · rintro ⟨init', b', rest', heq, hlen', hmore, hb'⟩
    have hle : init'.length ≤ init.length := by
      by_contra hlt
      have hmem := mem_take_of_lt (b := b) (not_le.mp hlt) rest
      rw [heq, List.take_left] at hmem
      exact absurd (hmore b hmem) (not_le.mpr hterm.last)
    obtain ⟨rfl, htails⟩ := List.append_inj heq (by omega)
    obtain ⟨rfl, -⟩ := List.cons.inj htails
    exact ⟨hlen', hb'.resolve_right fun h => absurd h.2.1 (not_le.mpr hterm.last)⟩
  · rintro ⟨hmost, hb⟩
    exact ⟨init, b, rest, rfl, hmost, hterm.more, .inl hb⟩

theorem lax_more {d : Decoder} {bytes : Bytes} (hmore : ∀ c ∈ bytes.take d.maxLen, 128 ≤ c.toNat) :
    d.Lax bytes ↔ d = int33 ∧ ∃ init b rest, bytes = init ++ b :: rest ∧ init.length = 4 ∧
      (∀ c ∈ init, 128 ≤ c.toNat) ∧ Agree 4 b := by
  have hspare := d.two_pow_spare_le
  constructor
  · rintro ⟨init, b, rest, rfl, hlen, hinit, hb⟩
    have hgoesOn := hmore b (mem_take_of_lt (by omega) rest)
    rcases hb with hb | ⟨rfl, -, hagree⟩
    · omega
    · exact ⟨rfl, init, b, rest, rfl, Nat.succ_inj.mp hlen, hinit, hagree⟩
  · rintro ⟨rfl, init, b, rest, rfl, hlen, hinit, hagree⟩
    have hgoesOn := hmore b (mem_take_of_lt (by rw [hlen]; decide) rest)
    exact ⟨init, b, rest, rfl, congrArg (· + 1) hlen, hinit, .inr ⟨rfl, hgoesOn, hagree⟩⟩

/-- Five bytes that go on are refused if bits 4 and 5 of the fifth differ. -/
theorem int33_more {bytes : Bytes} (hmore : ∀ c ∈ bytes.take int33.maxLen, 128 ≤ c.toNat) :
    (∀ n rest, ¬ int33.decode bytes = .ok (n, rest)) ↔
      ¬ ∃ init b rest, bytes = init ++ b :: rest ∧ init.length = 4 ∧
        (∀ c ∈ init, 128 ≤ c.toNat) ∧ Agree 4 b := by
  by_cases hshort : bytes.length < 5
  · have heof : int33.decode bytes = .error .eof := by
      have hall : ∀ c ∈ bytes, 128 ≤ c.toNat := fun c hc =>
        hmore c (by rwa [List.take_of_length_le (show bytes.length ≤ int33.maxLen from hshort.le)])
      rw [decode, decodeInt33AsInt64, int33Loop_eof hall hshort]
    rw [heof]
    refine iff_of_true (by simp) ?_
    rintro ⟨init, b, rest, rfl, hlen, -⟩
    rw [List.length_append, List.length_cons] at hshort
    omega
  · constructor
    · rintro hnone ⟨init, b, rest, rfl, hlen, hinit, hagree⟩
      apply hnone ((value init b).bmod (2 ^ 33)) rest
      rw [decode, decodeInt33AsInt64_eq hinit hlen.le (.inr hlen), if_pos (.inr ⟨hlen, hagree⟩)]
    · intro hnone n rest' hok
      obtain ⟨b, rest, hdrop⟩ := List.exists_cons_of_length_pos
        (show 0 < (bytes.drop 4).length by rw [List.length_drop]; omega)
      have hlen : (bytes.take 4).length = 4 := List.length_take_of_le (by omega)
      have heq : bytes = bytes.take 4 ++ b :: rest := by rw [← hdrop, List.take_append_drop]
      have hinit : ∀ c ∈ bytes.take 4, 128 ≤ c.toNat := fun c hc =>
        hmore c ((List.take_subset_take_left bytes (show 4 ≤ 5 by omega)) hc)
      rw [heq] at hok
      have hdecode := (decodeInt33AsInt64_eq hinit hlen.le (.inr hlen) rest).symm.trans hok
      by_cases hagree : Agree 4 b
      · exact hnone ⟨bytes.take 4, b, rest, heq, hlen, hinit, hagree⟩
      · rw [if_neg (fun h => h.elim hlen.not_lt fun h => hagree h.2)] at hdecode
        cases hdecode

theorem agree_iff (d : Decoder) {b : UInt8} (hb : b.toNat < 128) :
    Agree d.spare b ↔ (b.toNat < 2 ^ d.spare ∨ 128 ≤ b.toNat + 2 ^ d.spare) ∨
      64 ≤ b.toNat + 2 ^ d.spare ∧ b.toNat < 64 + 2 ^ d.spare := by
  have hspare := d.two_pow_spare_le
  rw [Agree]
  omega

/-- Every encoding is read as its number. -/
theorem decode_of_encodes {d : Decoder} {bytes : Bytes} {n : Int} {rest : Bytes}
    (h : d.Encodes bytes n rest) : d.decode bytes = .ok (n, rest) := by
  obtain ⟨enc, rfl, hn, hlen, hin⟩ := h
  obtain ⟨init, b, hterm, rfl, rfl⟩ := Varint.signed_iff.mp hn
  rw [List.length_append, List.length_singleton] at hlen
  have hrange := (d.inRange_iff hterm hlen).mp hin
  have hagree := d.agree_iff hterm.last
  rw [List.append_assoc, List.singleton_append, d.decode_terminated hterm hlen,
    d.bmod_of_inRange hin, if_pos (by rw [hagree]; omega)]

theorem decode_exact_iff_terminated (d : Decoder) {init : Bytes} {b : UInt8}
    (hterm : Terminated init b) (hlen : init.length < d.maxLen) (rest : Bytes) :
    (∀ n rest', d.decode (init ++ b :: rest) = .ok (n, rest') ↔
      d.Encodes (init ++ b :: rest) n rest') ↔ ¬ d.Lax (init ++ b :: rest) := by
  have hrange := d.inRange_iff hterm hlen
  have hb := hterm.last
  have hspare := d.two_pow_spare_le
  have hagree := d.agree_iff hb
  rw [d.lax_terminated hterm hlen, d.decode_terminated hterm hlen]
  simp only [d.encodes_iff hterm]
  by_cases haccept : init.length + 1 < d.maxLen ∨ init.length + 1 = d.maxLen ∧ Agree d.spare b
  · rw [if_pos haccept]
    constructor
    · intro hall hlax
      have hin := hrange.mp ((hall _ rest).mp rfl).2.2.2
      omega
    · intro hlax n rest'
      have hin := hrange.mpr (by rw [hagree] at haccept; omega)
      rw [d.bmod_of_inRange hin]
      constructor
      · intro h
        cases h
        exact ⟨rfl, rfl, hlen, hin⟩
      · rintro ⟨rfl, rfl, -⟩
        rfl
  · rw [if_neg haccept]
    rw [hagree] at haccept
    refine iff_of_true (fun n rest' => iff_of_false (by simp) fun h => ?_) (by omega)
    have hin := hrange.mp h.2.2.2
    omega

theorem decode_exact_iff (d : Decoder) (bytes : Bytes) :
    (∀ n rest, d.decode bytes = .ok (n, rest) ↔ d.Encodes bytes n rest) ↔ ¬ d.Lax bytes := by
  rcases split_most d bytes with ⟨init, b, rest, hterm, hlen, rfl⟩ | hmore
  · exact d.decode_exact_iff_terminated hterm hlen rest
  · rw [lax_more hmore]
    simp only [iff_false_intro (not_encodes hmore _ _), iff_false]
    by_cases hd : d = int33
    · subst hd
      rw [int33_more hmore]
      exact not_congr (and_iff_right rfl).symm
    · obtain ⟨e, he⟩ := decode_more hd hmore
      rw [he]
      exact iff_of_true (by simp) fun h => hd h.1

/-- The number is `-2 ^ 34` and is read as 0, and five bytes that go on are read as 0. -/
theorem decode_lax :
    (int32.decode [0x80, 0x80, 0x80, 0x80, 0x40] = .ok (0, []) ∧
      ¬ int32.Encodes [0x80, 0x80, 0x80, 0x80, 0x40] 0 []) ∧
    int33.decode [0x80, 0x80, 0x80, 0x80, 0x80] = .ok (0, []) ∧
      ¬ int33.Encodes [0x80, 0x80, 0x80, 0x80, 0x80] 0 [] := by
  have hmore : ∀ n, ∀ c ∈ List.replicate n (0x80 : UInt8), 128 ≤ c.toNat := by
    intro n c hc
    rw [List.eq_of_mem_replicate hc]
    decide
  refine ⟨⟨by decide +kernel, fun h => ?_⟩, by decide +kernel,
    @not_encodes int33 [0x80, 0x80, 0x80, 0x80, 0x80] (hmore 5) 0 []⟩
  have hterm : Terminated [0x80, 0x80, 0x80, 0x80] 0x40 := ⟨hmore 4, by decide⟩
  have hvalue : (0 : Int) = value [0x80, 0x80, 0x80, 0x80] 0x40 :=
    ((int32.encodes_iff hterm).mp h).2.1
  exact absurd hvalue (by decide)

end Decoder

end Leb128
