import Mathlib

/-!
# Little-endian words

`encode w n` is the `w`-byte little-endian rendering of `n`, and `decode` reads one back. The
fixed-width words of a binary format are `le16`, `le32` and `le64`; `u16At`, `u32At` and `u64At`
read a word at an offset of a buffer.

* `words` — words one behind the other; `u64At_words` reads one of them.
* `u64At_append` — what stands around a word does not matter to it.
-/

namespace LittleEndian

/-- The `w` little-endian bytes of `n`. -/
def encode : Nat → Nat → List UInt8
  | 0, _ => []
  | w + 1, n => UInt8.ofNat (n % 256) :: encode w (n / 256)

/-- The number with the given little-endian bytes. -/
def decode : List UInt8 → Nat
  | [] => 0
  | b :: bs => b.toNat + 256 * decode bs

@[simp] theorem length_encode (w n : Nat) : (encode w n).length = w := by
  induction w generalizing n with
  | zero => rfl
  | succ w ih => rw [encode, List.length_cons, ih]

theorem decode_lt (bs : List UInt8) : decode bs < 256 ^ bs.length := by
  induction bs with
  | nil => exact Nat.one_pos
  | cons b bs ih =>
    have hb := b.toNat_lt
    rw [decode, List.length_cons, pow_succ]
    omega

theorem decode_encode (w n : Nat) : decode (encode w n) = n % 256 ^ w := by
  induction w generalizing n with
  | zero => rw [pow_zero, Nat.mod_one]; rfl
  | succ w ih =>
    have hbyte : (UInt8.ofNat (n % 256)).toNat = n % 256 := by
      rw [UInt8.toNat_ofNat', Nat.mod_mod]
    rw [encode, decode, ih, hbyte, pow_succ', Nat.mod_mul]

theorem decode_encode_of_lt {w n : Nat} (h : n < 256 ^ w) : decode (encode w n) = n := by
  rw [decode_encode, Nat.mod_eq_of_lt h]

theorem encode_decode (bs : List UInt8) : encode bs.length (decode bs) = bs := by
  induction bs with
  | nil => rfl
  | cons b bs ih =>
    have hb := b.toNat_lt
    have hmod : (b.toNat + 256 * decode bs) % 256 = b.toNat := by omega
    have hdiv : (b.toNat + 256 * decode bs) / 256 = decode bs := by omega
    rw [List.length_cons, decode, encode, hmod, hdiv, ih, UInt8.ofNat_toNat]

/-! ### Words -/

def le16 (x : UInt16) : List UInt8 := encode 2 x.toNat

def le32 (x : UInt32) : List UInt8 := encode 4 x.toNat

def le64 (x : UInt64) : List UInt8 := encode 8 x.toNat

@[simp] theorem length_le16 (x : UInt16) : (le16 x).length = 2 := length_encode _ _

@[simp] theorem length_le32 (x : UInt32) : (le32 x).length = 4 := length_encode _ _

@[simp] theorem length_le64 (x : UInt64) : (le64 x).length = 8 := length_encode _ _

/-- The word at an offset. -/
def u16At (b : List UInt8) (off : Nat) : UInt16 := UInt16.ofNat (decode ((b.drop off).take 2))

def u32At (b : List UInt8) (off : Nat) : UInt32 := UInt32.ofNat (decode ((b.drop off).take 4))

def u64At (b : List UInt8) (off : Nat) : UInt64 := UInt64.ofNat (decode ((b.drop off).take 8))

theorem le32_u32At {b : List UInt8} {off : Nat} (h : off + 4 ≤ b.length) :
    le32 (u32At b off) = (b.drop off).take 4 := by
  have hlen : ((b.drop off).take 4).length = 4 := by
    rw [List.length_take, List.length_drop]
    omega
  have hlt := decode_lt ((b.drop off).take 4)
  rw [hlen] at hlt
  rw [le32, u32At, UInt32.toNat_ofNat_of_lt' hlt]
  have hcode := encode_decode ((b.drop off).take 4)
  rwa [hlen] at hcode

theorem le64_u64At {b : List UInt8} {off : Nat} (h : off + 8 ≤ b.length) :
    le64 (u64At b off) = (b.drop off).take 8 := by
  have hlen : ((b.drop off).take 8).length = 8 := by
    rw [List.length_take, List.length_drop]
    omega
  have hlt := decode_lt ((b.drop off).take 8)
  rw [hlen] at hlt
  rw [le64, u64At, UInt64.toNat_ofNat_of_lt' hlt]
  have hcode := encode_decode ((b.drop off).take 8)
  rwa [hlen] at hcode

section

variable {b₁ b₂ : List UInt8} {off n : Nat}

theorem take_drop_append (src b₂ : List UInt8) (h : b₁.length = off) :
    ((b₁ ++ src ++ b₂).drop off).take src.length = src := by
  rw [List.append_assoc, List.drop_left' h, List.take_left]

theorem u16At_append {x : UInt16} (h : b₁.length = off) : u16At (b₁ ++ le16 x ++ b₂) off = x := by
  have hread := take_drop_append (le16 x) b₂ h
  rw [length_le16] at hread
  rw [u16At, hread, le16, decode_encode_of_lt x.toNat_lt, UInt16.ofNat_toNat]

theorem u32At_append {x : UInt32} (h : b₁.length = off) : u32At (b₁ ++ le32 x ++ b₂) off = x := by
  have hread := take_drop_append (le32 x) b₂ h
  rw [length_le32] at hread
  rw [u32At, hread, le32, decode_encode_of_lt x.toNat_lt, UInt32.ofNat_toNat]

theorem u64At_append {x : UInt64} (h : b₁.length = off) : u64At (b₁ ++ le64 x ++ b₂) off = x := by
  have hread := take_drop_append (le64 x) b₂ h
  rw [length_le64] at hread
  rw [u64At, hread, le64, decode_encode_of_lt x.toNat_lt, UInt64.ofNat_toNat]

theorem take_drop_of_take (h : b₁.take n = b₂.take n) {w : Nat} (hw : off + w ≤ n) :
    (b₁.drop off).take w = (b₂.drop off).take w := by
  have hcut : ∀ b : List UInt8, (b.drop off).take w = ((b.take n).drop off).take w := by
    intro b
    rw [List.drop_take, List.take_take, Nat.min_eq_left (by omega)]
  rw [hcut b₁, hcut b₂, h]

/-- Words one behind the other. -/
def words (ws : List UInt64) : List UInt8 := ws.flatMap le64

@[simp] theorem length_words (ws : List UInt64) : (words ws).length = ws.length * 8 := by
  induction ws with
  | nil => rfl
  | cons w ws ih =>
    rw [words, List.flatMap_cons, List.length_append, length_le64, ← words, ih, List.length_cons,
      Nat.succ_mul, Nat.add_comm]

theorem u64At_words {ws : List UInt64} {i : Nat} {w : UInt64} (hw : ws[i]? = some w)
    (h : b₁.length = off) : u64At (b₁ ++ words ws ++ b₂) (off + i * 8) = w := by
  induction ws generalizing b₁ off i with
  | nil => cases hw
  | cons x ws ih =>
    rw [words, List.flatMap_cons, ← words]
    cases i with
    | zero =>
      cases hw
      rw [← List.append_assoc, List.append_assoc, Nat.zero_mul, Nat.add_zero]
      exact u64At_append h
    | succ i =>
      have hshift : off + (i + 1) * 8 = off + 8 + i * 8 := by omega
      rw [← List.append_assoc, hshift]
      exact ih hw (by rw [List.length_append, length_le64, h])

end

end LittleEndian
