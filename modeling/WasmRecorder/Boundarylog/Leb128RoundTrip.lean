import WasmRecorder.Wasm.Leb128Decoders

/-!
# LEB128: the encoders and the decoders are inverse

Package `boundarylog` writes provider modules and has encoders of its own; package `leb128` has
another pair. All four write the shortest bytes of a number (`Varint.encode`,
`Varint.encodeSigned`), and every decoder reads them back. The unsigned decoders accept nothing else
than numbers in range.

* `encodeUint64_eq`, `appendULEB128_eq`, `encodeInt64_eq`, `appendSLEB128_eq` — what the loops write.
* `unsignedLoop_ok_iff` — what the unsigned decoders accept.
* `leb128_inverse` — the round trips, the shortest encodings and the unsigned decoders.
-/

namespace Leb128

open Wasm (Bytes)
open Varint

/-! ### The bytes of the encoders -/

theorem shift_eq_zero_iff_lt (value : UInt64) : value >>> 7 = 0 ↔ value.toNat < 128 := by
  rw [← UInt64.toNat_inj, toNat_shift]
  change value.toNat / 128 = 0 ↔ _
  omega

theorem low_eq {value : UInt64} (h : value.toNat < 128) :
    (value &&& 0x7f).toUInt8 = UInt8.ofNat value.toNat := by
  rw [← UInt8.toNat_inj, toNat_low, UInt8.toNat_ofNat_of_lt' (by change _ < 256; omega)]
  omega

theorem low_or_high_eq (value : UInt64) :
    (value &&& 0x7f).toUInt8 ||| 0x80 = UInt8.ofNat (value.toNat % 128 + 128) := by
  rw [← UInt8.toNat_inj, toNat_or_high (low_lt value), toNat_low,
    UInt8.toNat_ofNat_of_lt' (by change _ < 256; omega)]

theorem low_signed_eq (value : Int64) :
    (value &&& 0x7f).toUInt64.toUInt8 = UInt8.ofNat (value.toInt % 128).toNat := by
  have hlow := toNat_low_signed value
  rw [← UInt8.toNat_inj, UInt8.toNat_ofNat_of_lt' (by change _ < 256; omega)]
  omega

theorem low_signed_or_high_eq (value : Int64) :
    (value &&& 0x7f).toUInt64.toUInt8 ||| 0x80 =
      UInt8.ofNat ((value.toInt % 128).toNat + 128) := by
  have hlow := toNat_low_signed value
  rw [← UInt8.toNat_inj, toNat_or_high (by omega),
    UInt8.toNat_ofNat_of_lt' (by change _ < 256; omega)]
  omega

theorem encodeUint64_eq (value : UInt64) : encodeUint64 value = encode value.toNat := by
  fun_induction encodeUint64 value with
  | case1 value b' value' b h =>
    have hzero : value >>> 7 = 0 := not_not.mp ((flag_iff (low_lt value)).mp h)
    have hsmall := (shift_eq_zero_iff_lt value).mp hzero
    rw [encode, if_pos hsmall, ← low_eq hsmall]
    exact congrArg ([·]) (if_neg (not_not.mpr hzero))
  | case2 value b' value' b h ih =>
    have hne : value >>> 7 ≠ 0 := not_not.mp (mt (flag_iff (low_lt value)).mpr h)
    rw [encode, if_neg (mt (shift_eq_zero_iff_lt value).mpr hne), ih, toNat_shift, ← low_or_high_eq]
    exact congrArg (· :: _) (if_pos hne)

theorem encodeInt64_eq (value : Int64) : encodeInt64 value = encodeSigned value.toInt := by
  fun_induction encodeInt64 value with
  | case1 value b' s value' b h =>
    have hlast := (flag_iff (low_lt value.toUInt64)).mp h
    rw [encodeSigned, if_pos (not_not.mp (mt (more_iff value).mpr hlast)), ← low_signed_eq]
    exact congrArg ([·]) (if_neg hlast)
  | case2 value b' s value' b h ih =>
    have hmore := not_not.mp (mt (flag_iff (low_lt value.toUInt64)).mpr h)
    rw [encodeSigned, if_neg ((more_iff value).mp hmore), ih, toInt_shift, ← low_signed_or_high_eq]
    exact congrArg (· :: _) (if_pos hmore)

theorem encodeUint32_eq (value : UInt32) : encodeUint32 value = encode value.toNat := by
  rw [encodeUint32, encodeUint64_eq, UInt32.toNat_toUInt64]

theorem encodeInt32_eq (value : Int32) : encodeInt32 value = encodeSigned value.toInt := by
  rw [encodeInt32, encodeInt64_eq, Int32.toInt_toInt64]

/-! ### The unsigned decoders -/

theorem lt_high_iff (b : UInt8) : b < 0x80 ↔ b.toNat < 128 := UInt8.lt_iff_toNat_lt

/-- What an unsigned decoder makes of a number. -/
theorem unsignedLoop_terminated (unusedBits : UInt8 → Bool) {init : Bytes} {b : UInt8}
    (hterm : Terminated init b) (more : Nat) {read r : Nat} (hr : r < 2 ^ (7 * read))
    (rest : Bytes) :
    unsignedLoop unusedBits more (7 * read) r (init ++ b :: rest) =
      if init.length < more ∧ ¬ (init.length + 1 = more ∧ unusedBits b) then
        .ok (r + (payload init + b.toNat * 128 ^ init.length) * 2 ^ (7 * read), rest)
      else .error .overflow := by
  induction init generalizing more read r with
  | nil =>
    cases more with
    | zero => rfl
    | succ more =>
      rw [List.nil_append, unsignedLoop, if_pos ((lt_high_iff b).mpr hterm.last),
        or_shiftLeft hr, List.length_nil, payload, Nat.zero_add, pow_zero, Nat.mul_one, ← ite_not]
      refine if_congr ?_ (by rw [Nat.zero_add]) rfl
      exact ⟨fun h => ⟨Nat.succ_pos more, fun h' => h ⟨(Nat.succ_inj.mp h'.1).symm, h'.2⟩⟩,
        fun h h' => h.2 ⟨congrArg (· + 1) h'.1.symm, h'.2⟩⟩
  | cons c init ih =>
    obtain ⟨hc, htail⟩ := hterm.tail
    have hdigit : c.toNat % 128 < 128 := Nat.mod_lt _ (by omega)
    cases more with
    | zero => rfl
    | succ more =>
      have hbits : r + c.toNat % 128 * 2 ^ (7 * read) +
          (payload init + b.toNat * 128 ^ init.length) * 2 ^ (7 * (read + 1)) =
          r + (payload (c :: init) + b.toNat * 128 ^ (init.length + 1)) * 2 ^ (7 * read) := by
        rw [payload, Nat.mul_succ, pow_add, pow_succ]
        ring
      rw [List.cons_append, unsignedLoop, if_neg (mt (lt_high_iff c).mp (not_lt.mpr hc)),
        toNat_low_byte, or_shiftLeft hr, ← Nat.mul_succ, ih htail more (add_mul_lt hr hdigit), hbits]
      exact if_congr (and_congr Nat.succ_lt_succ_iff.symm
        (not_congr (and_congr_left' Nat.succ_inj.symm))) rfl rfl

theorem unsignedLoop_more (unusedBits : UInt8 → Bool) {bytes : Bytes}
    (hmore : ∀ c ∈ bytes, 128 ≤ c.toNat) (more shift r : Nat) :
    ∃ e, unsignedLoop unusedBits more shift r bytes = .error e := by
  induction bytes generalizing more shift r with
  | nil => cases more <;> exact ⟨_, rfl⟩
  | cons c bytes ih =>
    obtain ⟨hc, hbytes⟩ := List.forall_mem_cons.mp hmore
    cases more with
    | zero => exact ⟨_, rfl⟩
    | succ more =>
      rw [unsignedLoop, if_neg (mt (lt_high_iff c).mp (not_lt.mpr hc))]
      exact ih hbytes more _ _

theorem lt_two_pow_iff {init : Bytes} {b : UInt8} (hb : b.toNat < 128) {j k : Nat}
    (hlen : init.length ≤ j) :
    payload init + b.toNat * 128 ^ init.length < 2 ^ (7 * j + k) ↔
      init.length < j ∨ b.toNat < 2 ^ k := by
  have hlt := payload_lt init
  rcases hlen.lt_or_eq with hshort | rfl
  · have hdigit := add_mul_lt (payload_lt_two_pow init) hb
    have hle : 2 ^ (7 * init.length + 7) ≤ 2 ^ (7 * j + k) := Nat.pow_le_pow_right (by omega) (by omega)
    rw [two_pow_seven] at hdigit
    exact iff_of_true (hdigit.trans_le hle) (.inl hshort)
  · rw [pow_add, two_pow_seven, or_iff_right (lt_irrefl _)]
    constructor
    · intro h
      by_contra hge
      have := Nat.mul_le_mul_right (128 ^ init.length) (not_lt.mp hge)
      rw [Nat.mul_comm (2 ^ k)] at this
      omega
    · intro h
      have := Nat.mul_le_mul_right (128 ^ init.length) (Nat.succ_le_of_lt h)
      rw [Nat.succ_mul, Nat.mul_comm (2 ^ k)] at this
      omega

/-- The numbers below a power of two are told by their last digit, if they have the most bytes. -/
theorem unsignedLoop_ok_iff {unusedBits : UInt8 → Bool} {j k : Nat}
    (hunused : ∀ b, unusedBits b ↔ 2 ^ k ≤ b.toNat) (bytes : Bytes) (n : Nat) (rest : Bytes) :
    unsignedLoop unusedBits (j + 1) 0 0 bytes = .ok (n, rest) ↔
      ∃ enc, bytes = enc ++ rest ∧ unsigned enc = some n ∧ enc.length ≤ j + 1 ∧
        n < 2 ^ (7 * j + k) := by
  rcases exists_split bytes with ⟨init, b, rest', hterm, rfl⟩ | hmore
  · have hloop := unsignedLoop_terminated unusedBits hterm (j + 1) (show 0 < 2 ^ (7 * 0) by simp) rest'
    rw [Nat.mul_zero, Nat.zero_add, pow_zero, Nat.mul_one] at hloop
    have hbound := @lt_two_pow_iff init b hterm.last j k
    rw [hloop]
    constructor
    · intro h
      split_ifs at h with hin
      cases h
      rw [hunused] at hin
      refine ⟨init ++ [b], by simp, unsigned_iff.mpr ⟨init, b, hterm, rfl, rfl⟩, ?_⟩
      rw [List.length_append]
      exact ⟨hin.1, (hbound (by omega)).mpr (by omega)⟩
    · rintro ⟨enc, heq, hn, hlen, hlt⟩
      obtain ⟨init', b', hterm', rfl, rfl⟩ := unsigned_iff.mp hn
      rw [List.append_assoc, List.singleton_append] at heq
      obtain ⟨rfl, rfl, rfl⟩ := hterm.unique hterm' heq
      rw [List.length_append, List.length_singleton] at hlen
      have := (hbound (by omega)).mp hlt
      rw [if_pos]
      rw [hunused]
      omega
  · obtain ⟨e, he⟩ := unsignedLoop_more unusedBits hmore (j + 1) 0 0
    rw [he]
    refine iff_of_false (by simp) ?_
    rintro ⟨enc, rfl, hn, -⟩
    obtain ⟨init, b, hterm, rfl, -⟩ := unsigned_iff.mp hn
    exact absurd (hmore b (by simp)) (not_le.mpr hterm.last)

theorem uint32Loop_eq (more shift ret : Nat) (bytes : Bytes) :
    uint32Loop more shift ret bytes =
      (unsignedLoop (0 < · &&& 0xf0) more shift ret bytes).map fun x => (UInt32.ofNat x.1, x.2) := by
  induction more generalizing shift ret bytes with
  | zero => rfl
  | succ more ih =>
    cases bytes with
    | nil => rfl
    | cons b rest =>
      rw [uint32Loop, unsignedLoop, ih, apply_ite (Except.map _), apply_ite (Except.map _)]
      simp only [decide_eq_true_eq]
      rfl

end Leb128

namespace Boundarylog

open Leb128

def appendULEB128 (dst : Wasm.Bytes) (v : UInt64) : Wasm.Bytes :=
  let b := (v &&& 0x7f).toUInt8
  let v' := v >>> 7
  let b := if v' ≠ 0 then b ||| 0x80 else b
  if v' = 0 then dst ++ [b] else appendULEB128 (dst ++ [b]) v'
termination_by v.toNat
decreasing_by
  rename_i h
  have hne : v.toNat / 128 ≠ 0 := by
    rw [← toNat_shift]
    exact fun h' => h (UInt64.toNat_inj.mp h')
  rw [toNat_shift]
  omega

/-- The test of `appendSLEB128` for the last byte. -/
theorem stop_iff (v : Int64) :
    ((v >>> 7 = 0 ∧ ¬ (v &&& 0x7f).toUInt64.toUInt8 &&& 0x40 ≠ 0) ∨
      (v >>> 7 = -1 ∧ (v &&& 0x7f).toUInt64.toUInt8 &&& 0x40 ≠ 0)) ↔
    -64 ≤ v.toInt ∧ v.toInt < 64 := by
  have hlow := toNat_low_signed v
  rw [sign_byte, shift_eq_zero_iff, shift_eq_neg_one_iff]
  omega

def appendSLEB128 (dst : Wasm.Bytes) (v : Int64) : Wasm.Bytes :=
  let b := (v &&& 0x7f).toUInt64.toUInt8
  let v' := v >>> 7
  if (v' = 0 ∧ ¬ b &&& 0x40 ≠ 0) ∨ (v' = -1 ∧ b &&& 0x40 ≠ 0) then dst ++ [b]
  else appendSLEB128 (dst ++ [b ||| 0x80]) v'
termination_by v.toInt.natAbs
decreasing_by
  rename_i h
  rw [stop_iff] at h
  rw [toInt_shift]
  omega

theorem appendULEB128_eq (dst : Wasm.Bytes) (v : UInt64) :
    appendULEB128 dst v = dst ++ Varint.encode v.toNat := by
  fun_induction appendULEB128 dst v with
  | case1 dst v b' v' b hzero =>
    have hsmall := (shift_eq_zero_iff_lt v).mp hzero
    rw [Varint.encode, if_pos hsmall, ← low_eq hsmall]
    exact congrArg (dst ++ [·]) (if_neg (not_not.mpr hzero))
  | case2 dst v b' v' b hne ih =>
    rw [Varint.encode, if_neg (mt (shift_eq_zero_iff_lt v).mpr hne), ih, toNat_shift, ← low_or_high_eq,
      List.append_assoc, List.singleton_append]
    exact congrArg (dst ++ · :: _) (if_pos hne)

theorem appendSLEB128_eq (dst : Wasm.Bytes) (v : Int64) :
    appendSLEB128 dst v = dst ++ Varint.encodeSigned v.toInt := by
  fun_induction appendSLEB128 dst v with
  | case1 dst v b v' hstop =>
    rw [Varint.encodeSigned, if_pos ((stop_iff v).mp hstop), ← low_signed_eq]
  | case2 dst v b v' hstop ih =>
    rw [Varint.encodeSigned, if_neg (mt (stop_iff v).mpr hstop), ih, toInt_shift,
      ← low_signed_or_high_eq, List.append_assoc, List.singleton_append]

/-! ### Round trips -/

/-- Bytes that start with an unsigned number below `2 ^ width`, of at most `maxLen` bytes. -/
def StartsWith (width maxLen : Nat) (bytes : Wasm.Bytes) (n : Nat) (rest : Wasm.Bytes) : Prop :=
  ∃ enc, bytes = enc ++ rest ∧ Varint.unsigned enc = some n ∧ enc.length ≤ maxLen ∧ n < 2 ^ width

/-- The bytes of a number, and none that are fewer. -/
def IsShortest {α : Type} (value : Wasm.Bytes → Option α) (n : α) (enc : Wasm.Bytes) : Prop :=
  value enc = some n ∧ ∀ bytes, value bytes = some n → enc.length ≤ bytes.length

theorem map_ok_iff {α β : Type} {r : Except Error (α × Wasm.Bytes)} {f : α → β} {g : β → α} {x : β}
    (hg : ∀ a rest, r = .ok (a, rest) → g (f a) = a) (hf : f (g x) = x) (rest : Wasm.Bytes) :
    (r.map fun y => (f y.1, y.2)) = .ok (x, rest) ↔ r = .ok (g x, rest) := by
  constructor
  · intro h
    cases hr : r with
    | error e =>
      rw [hr] at h
      cases h
    | ok y =>
      rw [hr] at h
      cases h
      rw [hg y.1 y.2 hr]
  · rintro rfl
    exact congrArg (fun x => Except.ok (x, rest)) hf

theorem decodeUint32_ok_iff (bytes : Wasm.Bytes) (x : UInt32) (rest : Wasm.Bytes) :
    decodeUint32 bytes = .ok (x, rest) ↔ StartsWith 32 5 bytes x.toNat rest := by
  have hunused (b : UInt8) : decide (0 < b &&& 0xf0) = true ↔ 2 ^ 4 ≤ b.toNat := by
    have h : ∀ n < 256, 0 < n &&& 240 ↔ 2 ^ 4 ≤ n := by decide +kernel
    rw [decide_eq_true_iff, UInt8.lt_iff_toNat_lt, UInt8.toNat_and]
    exact h b.toNat b.toNat_lt
  rw [StartsWith, ← unsignedLoop_ok_iff (j := 4) (k := 4) hunused, decodeUint32, uint32Loop_eq]
  refine map_ok_iff (fun n rest' h => ?_) UInt32.ofNat_toNat rest
  obtain ⟨-, -, -, -, hlt⟩ := (unsignedLoop_ok_iff hunused _ _ _).mp h
  exact UInt32.toNat_ofNat_of_lt' hlt

theorem loadUint64_ok_iff (bytes : Wasm.Bytes) (x : UInt64) (rest : Wasm.Bytes) :
    loadUint64 bytes = .ok (x, rest) ↔ StartsWith 64 10 bytes x.toNat rest := by
  have hunused (b : UInt8) : decide (1 < b) = true ↔ 2 ^ 1 ≤ b.toNat := by
    rw [decide_eq_true_iff, UInt8.lt_iff_toNat_lt]
    rfl
  rw [StartsWith, ← unsignedLoop_ok_iff (j := 9) (k := 1) hunused, loadUint64]
  refine map_ok_iff (fun n rest' h => ?_) UInt64.ofNat_toNat rest
  obtain ⟨-, -, -, -, hlt⟩ := (unsignedLoop_ok_iff hunused _ _ _).mp h
  exact UInt64.toNat_ofNat_of_lt' hlt

theorem startsWith_encode {width k : Nat} {n : Nat} (hn : n < 2 ^ width) (hle : width ≤ 7 * (k + 1))
    (rest : Wasm.Bytes) : StartsWith width (k + 1) (Varint.encode n ++ rest) n rest := by
  refine ⟨_, rfl, Varint.unsigned_encode n, Varint.length_encode_le_of_lt ?_, hn⟩
  rw [← Varint.two_pow_seven]
  exact hn.trans_le (Nat.pow_le_pow_right (by omega) hle)

theorem encodes_encodeSigned (d : Decoder) {n : Int} (hlow : -2 ^ (d.width - 1) ≤ n)
    (hhigh : n < 2 ^ (d.width - 1)) (rest : Wasm.Bytes) :
    d.Encodes (Varint.encodeSigned n ++ rest) n rest := by
  have hbound : (2 : Int) ^ (d.width - 1) ≤ 2 ^ 6 * 128 ^ (d.maxLen - 1) := by
    rw [← Varint.two_pow_place]
    exact pow_le_pow_right₀ (by omega) (by cases d <;> decide)
  have hlen := Varint.length_encodeSigned_le_of_lt (n := n) (k := d.maxLen - 1) (by omega) (by omega)
  rw [Nat.sub_add_cancel (by cases d <;> decide)] at hlen
  exact ⟨_, rfl, Varint.signed_encodeSigned n, hlen, hlow, hhigh⟩

theorem loadUint64_encode (v : UInt64) (rest : Wasm.Bytes) :
    loadUint64 (Varint.encode v.toNat ++ rest) = .ok (v, rest) :=
  (loadUint64_ok_iff _ v rest).mpr (startsWith_encode v.toNat_lt (by omega) rest)

theorem decodeUint32_encode (v : UInt32) (rest : Wasm.Bytes) :
    decodeUint32 (Varint.encode v.toNat ++ rest) = .ok (v, rest) :=
  (decodeUint32_ok_iff _ v rest).mpr (startsWith_encode v.toNat_lt (by omega) rest)

theorem decodeInt64_encodeSigned (v : Int64) (rest : Wasm.Bytes) :
    decodeInt64 (Varint.encodeSigned v.toInt ++ rest) = .ok (v.toUInt64, rest) := by
  have hdecode := Decoder.decode_of_encodes
    (encodes_encodeSigned .int64 v.le_toInt v.toInt_lt rest)
  have hmap := map_ok_iff (r := decodeInt64 (Varint.encodeSigned v.toInt ++ rest))
    (f := fun x => x.toInt64.toInt) (g := fun n => (Int64.ofInt n).toUInt64) (x := v.toInt)
    (fun x _ _ => congrArg Int64.toUInt64 (Int64.ofInt_toInt x.toInt64))
    (congrArg Int64.toInt (Int64.ofInt_toInt v)) rest
  rw [hmap.mp hdecode, Int64.ofInt_toInt]

theorem decodeInt32_encodeSigned (v : Int32) (rest : Wasm.Bytes) :
    decodeInt32 (Varint.encodeSigned v.toInt ++ rest) = .ok (v.toUInt32, rest) := by
  have hdecode := Decoder.decode_of_encodes
    (encodes_encodeSigned .int32 v.le_toInt v.toInt_lt rest)
  have hmap := map_ok_iff (r := decodeInt32 (Varint.encodeSigned v.toInt ++ rest))
    (f := fun x => x.toInt32.toInt) (g := fun n => (Int32.ofInt n).toUInt32) (x := v.toInt)
    (fun x _ _ => congrArg Int32.toUInt32 (Int32.ofInt_toInt x.toInt32))
    (congrArg Int32.toInt (Int32.ofInt_toInt v)) rest
  rw [hmap.mp hdecode, Int32.ofInt_toInt]

theorem isShortest_encode (n : Nat) : IsShortest Varint.unsigned n (Varint.encode n) :=
  ⟨Varint.unsigned_encode n, fun _ => Varint.length_encode_le⟩

theorem isShortest_encodeSigned (n : Int) : IsShortest Varint.signed n (Varint.encodeSigned n) :=
  ⟨Varint.signed_encodeSigned n, fun _ => Varint.length_encodeSigned_le⟩

theorem leb128_inverse :
    (∀ (v : UInt64) (rest : Wasm.Bytes),
      loadUint64 (encodeUint64 v ++ rest) = .ok (v, rest) ∧
      loadUint64 (appendULEB128 [] v ++ rest) = .ok (v, rest)) ∧
    (∀ (v : UInt32) (rest : Wasm.Bytes),
      decodeUint32 (encodeUint32 v ++ rest) = .ok (v, rest) ∧
      decodeUint32 (appendULEB128 [] v.toUInt64 ++ rest) = .ok (v, rest)) ∧
    (∀ (v : Int64) (rest : Wasm.Bytes),
      decodeInt64 (encodeInt64 v ++ rest) = .ok (v.toUInt64, rest) ∧
      decodeInt64 (appendSLEB128 [] v ++ rest) = .ok (v.toUInt64, rest)) ∧
    (∀ (v : Int32) (rest : Wasm.Bytes),
      decodeInt32 (encodeInt32 v ++ rest) = .ok (v.toUInt32, rest) ∧
      decodeInt32 (appendSLEB128 [] v.toInt64 ++ rest) = .ok (v.toUInt32, rest)) ∧
    (∀ v : UInt64, IsShortest Varint.unsigned v.toNat (encodeUint64 v) ∧
      IsShortest Varint.unsigned v.toNat (appendULEB128 [] v)) ∧
    (∀ v : UInt32, IsShortest Varint.unsigned v.toNat (encodeUint32 v)) ∧
    (∀ v : Int64, IsShortest Varint.signed v.toInt (encodeInt64 v) ∧
      IsShortest Varint.signed v.toInt (appendSLEB128 [] v)) ∧
    (∀ v : Int32, IsShortest Varint.signed v.toInt (encodeInt32 v)) ∧
    (∀ (bytes : Wasm.Bytes) (x : UInt32) (rest : Wasm.Bytes),
      decodeUint32 bytes = .ok (x, rest) ↔ StartsWith 32 5 bytes x.toNat rest) ∧
    ∀ (bytes : Wasm.Bytes) (x : UInt64) (rest : Wasm.Bytes),
      loadUint64 bytes = .ok (x, rest) ↔ StartsWith 64 10 bytes x.toNat rest := by
  refine ⟨fun v rest => ?_, fun v rest => ?_, fun v rest => ?_, fun v rest => ?_, fun v => ?_,
    fun v => ?_, fun v => ?_, fun v => ?_, decodeUint32_ok_iff, loadUint64_ok_iff⟩
  · rw [encodeUint64_eq, appendULEB128_eq, List.nil_append]
    exact ⟨loadUint64_encode v rest, loadUint64_encode v rest⟩
  · rw [encodeUint32_eq, appendULEB128_eq, List.nil_append, UInt32.toNat_toUInt64]
    exact ⟨decodeUint32_encode v rest, decodeUint32_encode v rest⟩
  · rw [encodeInt64_eq, appendSLEB128_eq, List.nil_append]
    exact ⟨decodeInt64_encodeSigned v rest, decodeInt64_encodeSigned v rest⟩
  · rw [encodeInt32_eq, appendSLEB128_eq, List.nil_append, Int32.toInt_toInt64]
    exact ⟨decodeInt32_encodeSigned v rest, decodeInt32_encodeSigned v rest⟩
  · rw [encodeUint64_eq, appendULEB128_eq, List.nil_append]
    exact ⟨isShortest_encode v.toNat, isShortest_encode v.toNat⟩
  · rw [encodeUint32_eq]
    exact isShortest_encode v.toNat
  · rw [encodeInt64_eq, appendSLEB128_eq, List.nil_append]
    exact ⟨isShortest_encodeSigned v.toInt, isShortest_encodeSigned v.toInt⟩
  · rw [encodeInt32_eq]
    exact isShortest_encodeSigned v.toInt

end Boundarylog
