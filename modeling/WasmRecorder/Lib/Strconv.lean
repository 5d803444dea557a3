import Mathlib

/-!
# Reading and writing numbers and bytes as text

The conversions that Go's `strconv`, `strings` and `encoding/base64` provide, over
lists of characters. Every reader is partial: `none` is the error
case, whichever of `ErrSyntax` and `ErrRange` it is.

* `parseHex` — the base-16 reader; `decodeBase64` — the standard alphabet with padding.
* `parseFloat` — the nearest `float64`, as its bit pattern, rounding half to even;
  `float64To32` is the conversion to the narrower format.

The integer reader and the numeral printer are inverse (`parseUint_formatUint`,
`atoi_formatUint`), and a numeral has only digits in it. Every other string of digits is
the numeral of its value behind zeros (`eq_zeros_of_numeral`); the signed reader takes a
natural number also behind a plus, and zero behind a minus (`integerOf_eq_natCast_iff`).
-/

namespace Strconv

/-! ### Integers -/

/-- `strconv.ParseUint(s, 10, bits)`: a non-empty string of digits whose value
fits the bit size. -/
def parseUint (s : List Char) (bits : Nat) : Option Nat :=
  if s ≠ [] ∧ s.all Char.isDigit = true ∧ Nat.ofDigitChars 10 s 0 < 2 ^ bits then
    some (Nat.ofDigitChars 10 s 0)
  else none

/-- `strconv.ParseInt(s, 10, bits)`: an optional sign, then a numeral whose signed
value fits the bit size. -/
def parseInt (s : List Char) (bits : Nat) : Option Int :=
  match s with
  | '-' :: ds => (parseUint ds bits).bind fun n =>
      if n ≤ 2 ^ (bits - 1) then some (-(n : Int)) else none
  | '+' :: ds => (parseUint ds bits).bind fun n =>
      if n < 2 ^ (bits - 1) then some (n : Int) else none
  | ds => (parseUint ds bits).bind fun n =>
      if n < 2 ^ (bits - 1) then some (n : Int) else none

/-- `strconv.Atoi` on a 64-bit platform. -/
def atoi (s : List Char) : Option Int := parseInt s 64

/-- `strconv.FormatUint(n, 10)`. -/
def formatUint (n : Nat) : List Char := Nat.toDigits 10 n

theorem formatUint_ne_nil (n : Nat) : formatUint n ≠ [] := Nat.toDigits_ne_nil

theorem isDigit_of_mem_formatUint {n : Nat} {c : Char} (hc : c ∈ formatUint n) :
    c.isDigit = true :=
  Nat.isDigit_of_mem_toDigits (by decide) (by decide) hc

theorem formatUint_all_isDigit (n : Nat) : (formatUint n).all Char.isDigit = true :=
  List.all_eq_true.mpr fun _ hc => isDigit_of_mem_formatUint hc

theorem formatUint_eq_cons (n : Nat) :
    ∃ c ds, formatUint n = c :: ds ∧ c ≠ '-' ∧ c ≠ '+' := by
  cases hs : formatUint n with
  | nil => exact absurd hs (formatUint_ne_nil n)
  | cons c ds =>
    have hc : c.isDigit = true :=
      isDigit_of_mem_formatUint (n := n) (by rw [hs]; exact List.mem_cons_self)
    refine ⟨c, ds, rfl, ?_, ?_⟩ <;> (rintro rfl; exact absurd hc (by decide))

theorem parseUint_formatUint {n bits : Nat} (hn : n < 2 ^ bits) :
    parseUint (formatUint n) bits = some n := by
  have hval : Nat.ofDigitChars 10 (formatUint n) 0 = n := Nat.ofDigitChars_ten_toDigits
  rw [parseUint, hval, if_pos ⟨formatUint_ne_nil n, formatUint_all_isDigit n, hn⟩]

theorem parseInt_of_unsigned {c : Char} {ds : List Char} {bits : Nat} (hm : c ≠ '-')
    (hp : c ≠ '+') :
    parseInt (c :: ds) bits = (parseUint (c :: ds) bits).bind fun n =>
      if n < 2 ^ (bits - 1) then some (n : Int) else none := by
  rw [parseInt]
  · rintro ds' h; exact hm (List.cons.inj h).1
  · rintro ds' h; exact hp (List.cons.inj h).1

theorem parseInt_formatUint {n bits : Nat} (hn : n < 2 ^ (bits - 1)) :
    parseInt (formatUint n) bits = some (n : Int) := by
  have hn' : n < 2 ^ bits :=
    lt_of_lt_of_le hn (Nat.pow_le_pow_right (by decide) (Nat.sub_le bits 1))
  obtain ⟨c, ds, hs, hm, hp⟩ := formatUint_eq_cons n
  rw [hs, parseInt_of_unsigned hm hp, ← hs, parseUint_formatUint hn']
  simp [hn]

theorem atoi_formatUint {n : Nat} (hn : n < 2 ^ 63) : atoi (formatUint n) = some (n : Int) :=
  parseInt_formatUint hn

/-- `strconv.FormatInt(n, 10)`. -/
def formatInt (n : Int) : List Char :=
  if n < 0 then '-' :: formatUint n.natAbs else formatUint n.natAbs

/-! ### The integer a text spells -/

/-- The number of a non-empty string of digits, of whatever size. -/
def numeral (ds : List Char) : Option Nat :=
  if ds ≠ [] ∧ ds.all Char.isDigit = true then some (Nat.ofDigitChars 10 ds 0) else none

/-- The integer a text spells, of whatever size: an optional sign, then digits. -/
def integerOf (s : List Char) : Option Int :=
  match s with
  | '-' :: ds => (numeral ds).map fun n : Nat => -(n : Int)
  | '+' :: ds => (numeral ds).map fun n : Nat => (n : Int)
  | ds => (numeral ds).map fun n : Nat => (n : Int)

/-- Does a text begin with a sign? -/
def isSigned : List Char → Bool
  | '-' :: _ => true
  | '+' :: _ => true
  | _ => false

theorem parseUint_eq_bind (s : List Char) (bits : Nat) :
    parseUint s bits = (numeral s).bind fun n => if n < 2 ^ bits then some n else none := by
  rw [parseUint, numeral]
  by_cases h : s ≠ [] ∧ s.all Char.isDigit = true
  · rw [if_pos h, Option.bind_some]
    by_cases hlt : Nat.ofDigitChars 10 s 0 < 2 ^ bits
    · rw [if_pos ⟨h.1, h.2, hlt⟩, if_pos hlt]
    · rw [if_neg fun hall => hlt hall.2.2, if_neg hlt]
  · rw [if_neg h, if_neg fun hall => h ⟨hall.1, hall.2.1⟩]
    rfl

variable {s : List Char}

theorem numeral_of_isSigned (h : isSigned s = true) : numeral s = none := by
  refine if_neg fun hall => ?_
  unfold isSigned at h
  split at h
  · exact absurd (List.all_eq_true.mp hall.2 '-' List.mem_cons_self) (by decide)
  · exact absurd (List.all_eq_true.mp hall.2 '+' List.mem_cons_self) (by decide)
  · cases h

theorem integerOf_of_unsigned (h : isSigned s = false) :
    integerOf s = (numeral s).map fun n : Nat => (n : Int) := by
  unfold integerOf
  split
  · cases h
  · cases h
  · rfl

theorem parseInt_of_integerOf {n : Int} (h : integerOf s = some n) {bits : Nat} (hbits : 0 < bits) :
    parseInt s bits =
      if -2 ^ (bits - 1) ≤ n ∧ n < 2 ^ (bits - 1) then some n else none := by
  have hpow : 2 ^ bits = 2 * 2 ^ (bits - 1) := by
    rw [← Nat.pow_succ', Nat.succ_eq_add_one, Nat.sub_add_cancel hbits]
  have hcast : ((2 ^ (bits - 1) : Nat) : Int) = 2 ^ (bits - 1) := by push_cast; rfl
  -- a text without a minus sign
  have hplain : ∀ ds : List Char, (numeral ds).map (fun n : Nat => (n : Int)) = some n →
      ((parseUint ds bits).bind fun m => if m < 2 ^ (bits - 1) then some (m : Int) else none) =
        if -2 ^ (bits - 1) ≤ n ∧ n < 2 ^ (bits - 1) then some n else none := by
    intro ds hds
    obtain ⟨m, hm, rfl⟩ := Option.map_eq_some_iff.mp hds
    rw [parseUint_eq_bind, hm, Option.bind_some]
    by_cases hlt : m < 2 ^ (bits - 1)
    · rw [if_pos (show m < 2 ^ bits by omega), Option.bind_some, if_pos hlt,
        if_pos ⟨by omega, by omega⟩]
    · have hnone : (if m < 2 ^ bits then some m else none).bind
          (fun m => if m < 2 ^ (bits - 1) then some (m : Int) else none) = none := by
        split
        · rw [Option.bind_some, if_neg hlt]
        · rfl
      rw [hnone, if_neg fun hin => hlt (by omega)]
  unfold integerOf at h
  unfold parseInt
  split at h
  · next ds =>
    obtain ⟨m, hm, rfl⟩ := Option.map_eq_some_iff.mp h
    rw [parseUint_eq_bind, hm, Option.bind_some]
    by_cases hle : m ≤ 2 ^ (bits - 1)
    · have hpos : 0 < 2 ^ (bits - 1) := Nat.two_pow_pos _
      rw [if_pos (show m < 2 ^ bits by omega), Option.bind_some, if_pos hle,
        if_pos ⟨by omega, by omega⟩]
    · have hnone : (if m < 2 ^ bits then some m else none).bind
          (fun m => if m ≤ 2 ^ (bits - 1) then some (-(m : Int)) else none) = none := by
        split
        · rw [Option.bind_some, if_neg hle]
        · rfl
      rw [hnone, if_neg fun hin => hle (by omega)]
  · next ds => exact hplain ds h
  · exact hplain s h

theorem parseUint_of_integerOf {n : Int} (h : integerOf s = some n) (bits : Nat) :
    parseUint s bits =
      if isSigned s = false ∧ n < 2 ^ bits then some n.toNat else none := by
  rw [parseUint_eq_bind]
  cases hsigned : isSigned s with
  | true =>
    rw [numeral_of_isSigned hsigned, if_neg fun hin => by cases hin.1]
    rfl
  | false =>
    rw [integerOf_of_unsigned hsigned] at h
    obtain ⟨m, hm, rfl⟩ := Option.map_eq_some_iff.mp h
    have hcast : ((2 ^ bits : Nat) : Int) = 2 ^ bits := by push_cast; rfl
    rw [hm, Option.bind_some]
    by_cases hlt : m < 2 ^ bits
    · rw [if_pos hlt, if_pos ⟨rfl, by omega⟩]
      rfl
    · rw [if_neg hlt, if_neg fun hin => hlt (by omega)]

theorem numeral_formatUint (n : Nat) : numeral (formatUint n) = some n := by
  rw [numeral, if_pos ⟨formatUint_ne_nil n, formatUint_all_isDigit n⟩]
  exact congrArg some Nat.ofDigitChars_ten_toDigits

theorem isSigned_formatUint (n : Nat) : isSigned (formatUint n) = false := by
  obtain ⟨c, ds, hs, hm, hp⟩ := formatUint_eq_cons n
  rw [hs]
  unfold isSigned
  split
  · next h => exact absurd (List.cons.inj h).1 hm
  · next h => exact absurd (List.cons.inj h).1 hp
  · rfl

theorem integerOf_formatInt (n : Int) : integerOf (formatInt n) = some n := by
  unfold formatInt
  split
  · rw [integerOf, numeral_formatUint, Option.map_some]
    exact congrArg some (by omega)
  · rw [integerOf_of_unsigned (isSigned_formatUint _), numeral_formatUint, Option.map_some]
    exact congrArg some (by omega)

theorem isSigned_formatInt {n : Int} (h : 0 ≤ n) : isSigned (formatInt n) = false := by
  rw [formatInt, if_neg (by omega)]
  exact isSigned_formatUint _

theorem numeral_eq_some_iff {ds : List Char} {n : Nat} :
    numeral ds = some n ↔
      ds ≠ [] ∧ ds.all Char.isDigit = true ∧ Nat.ofDigitChars 10 ds 0 = n := by
  rw [numeral]
  split
  · next h => exact ⟨fun hn => ⟨h.1, h.2, Option.some.inj hn⟩, fun hn => congrArg some hn.2.2⟩
  · next h => exact ⟨(nomatch ·), fun hn => absurd ⟨hn.1, hn.2.1⟩ h⟩

theorem formatUint_digit {c : Char} (hc : c.isDigit = true) :
    formatUint (c.toNat - '0'.toNat) = [c] ∧ c.toNat - '0'.toNat < 10 := by
  have hrange : 48 ≤ c.toNat ∧ c.toNat ≤ 57 := by
    simp only [Char.isDigit, Bool.and_eq_true, decide_eq_true_eq] at hc
    exact hc
  have hall : ∀ d ∈ List.range 10, Nat.digitChar d = Char.ofNat (48 + d) := by decide
  have hlt : c.toNat - '0'.toNat < 10 := by
    change c.toNat - 48 < 10
    omega
  refine ⟨?_, hlt⟩
  rw [formatUint, Nat.toDigits_of_lt_base hlt, hall _ (List.mem_range.mpr hlt)]
  have hback : 48 + (c.toNat - '0'.toNat) = c.toNat := Nat.add_sub_cancel' hrange.1
  rw [hback, Char.ofNat_toNat]

/-- A string of digits is the numeral of its value after some zeros. -/
theorem eq_zeros_of_numeral {ds : List Char} {n : Nat} (h : numeral ds = some n) :
    ∃ zeros, ds = List.replicate zeros '0' ++ formatUint n := by
  -- on the digits from the right, as the value is accumulated from the left
  induction ds using List.reverseRecOn generalizing n with
  | nil => cases h
  | append_singleton ds c ih =>
    obtain ⟨-, hall, rfl⟩ := numeral_eq_some_iff.mp h
    rw [List.all_append, Bool.and_eq_true] at hall
    obtain ⟨hc, hlt⟩ := formatUint_digit (by simpa using hall.2 : c.isDigit = true)
    rw [Nat.ofDigitChars_append, Nat.ofDigitChars_cons, Nat.ofDigitChars_nil]
    by_cases hnil : ds = []
    · subst hnil
      exact ⟨0, by rw [Nat.ofDigitChars_nil, Nat.mul_zero, Nat.zero_add, hc]; rfl⟩
    · obtain ⟨zeros, hds⟩ := ih (numeral_eq_some_iff.mpr ⟨hnil, hall.1, rfl⟩)
      generalize Nat.ofDigitChars 10 ds 0 = m at hds ⊢
      rcases Nat.eq_zero_or_pos m with rfl | hpos
      · -- only zeros so far: the last one of them joins the others
        refine ⟨zeros + 1, ?_⟩
        rw [Nat.mul_zero, Nat.zero_add, hc, hds, List.replicate_succ']
        rfl
      · refine ⟨zeros, ?_⟩
        rw [formatUint, ← Nat.toDigits_append_toDigits (by decide) hpos hlt, hds,
          List.append_assoc]
        exact congrArg _ (congrArg _ hc.symm)

theorem numeral_zeros_append (zeros n : Nat) :
    numeral (List.replicate zeros '0' ++ formatUint n) = some n := by
  have hzeros : Nat.ofDigitChars 10 (List.replicate zeros '0') 0 = 0 := by
    induction zeros with
    | zero => rfl
    | succ k ih => rw [List.replicate_succ, Nat.ofDigitChars_cons]; exact ih
  refine numeral_eq_some_iff.mpr ⟨?_, ?_, ?_⟩
  · intro hnil
    exact formatUint_ne_nil n (List.append_eq_nil_iff.mp hnil).2
  · rw [List.all_append, formatUint_all_isDigit, Bool.and_true, List.all_replicate]
    split <;> rfl
  · rw [Nat.ofDigitChars_append, hzeros]
    exact Nat.ofDigitChars_ten_toDigits

theorem parseInt_eq_none (h : integerOf s = none) (bits : Nat) : parseInt s bits = none := by
  unfold integerOf at h
  unfold parseInt
  split at h <;> (rw [parseUint_eq_bind, Option.map_eq_none_iff.mp h]; rfl)

theorem parseInt_eq_natCast_iff {n bits : Nat} (hbits : 0 < bits) :
    parseInt s bits = some (n : Int) ↔ integerOf s = some (n : Int) ∧ n < 2 ^ (bits - 1) := by
  have hcast : ((2 ^ (bits - 1) : Nat) : Int) = 2 ^ (bits - 1) := by push_cast; rfl
  cases hs : integerOf s with
  | none => rw [parseInt_eq_none hs]; exact ⟨nofun, fun h => nomatch h.1⟩
  | some m =>
    rw [parseInt_of_integerOf hs hbits]
    constructor
    · intro h
      split at h
      · next hin => cases h; exact ⟨rfl, by omega⟩
      · cases h
    · rintro ⟨⟨⟩, hn⟩
      exact if_pos ⟨by omega, by omega⟩

theorem integerOf_eq_natCast_iff {n : Nat} :
    integerOf s = some (n : Int) ↔ numeral s = some n ∨
      ∃ sign ds, s = sign :: ds ∧ numeral ds = some n ∧ (sign = '+' ∨ sign = '-' ∧ n = 0) := by
  have hcast : ∀ ds : List Char,
      (numeral ds).map (fun m : Nat => (m : Int)) = some (n : Int) ↔ numeral ds = some n := by
    intro ds
    rw [Option.map_eq_some_iff]
    exact ⟨fun ⟨m, hm, hmn⟩ => by rwa [← Int.ofNat.inj hmn], fun h => ⟨n, h, rfl⟩⟩
  constructor
  · intro h
    unfold integerOf at h
    split at h
    · next ds =>
      obtain ⟨m, hm, hmn⟩ := Option.map_eq_some_iff.mp h
      have hzero : n = 0 ∧ m = 0 := by omega
      exact .inr ⟨'-', ds, rfl, by rw [hm, hzero.1, hzero.2], .inr ⟨rfl, hzero.1⟩⟩
    · next ds => exact .inr ⟨'+', ds, rfl, (hcast ds).mp h, .inl rfl⟩
    · exact .inl ((hcast s).mp h)
  · rintro (h | ⟨sign, ds, rfl, hds, rfl | ⟨rfl, rfl⟩⟩)
    · cases hsigned : isSigned s with
      | true => rw [numeral_of_isSigned hsigned] at h; cases h
      | false => rw [integerOf_of_unsigned hsigned]; exact (hcast s).mpr h
    · exact (hcast ds).mpr hds
    · rw [integerOf, hds]; rfl

/-- The value of a hexadecimal digit, either case. -/
def hexVal (c : Char) : Option Nat :=
  if '0' ≤ c ∧ c ≤ '9' then some (c.toNat - '0'.toNat)
  else if 'a' ≤ c ∧ c ≤ 'f' then some (c.toNat - 'a'.toNat + 10)
  else if 'A' ≤ c ∧ c ≤ 'F' then some (c.toNat - 'A'.toNat + 10)
  else none

/-- The value of a string of hexadecimal digits, most significant first. -/
def hexDigits : List Char → Nat → Option Nat
  | [], acc => some acc
  | c :: cs, acc => (hexVal c).bind fun d => hexDigits cs (16 * acc + d)

/-- `strconv.ParseUint(s, 16, bits)`. -/
def parseHex (s : List Char) (bits : Nat) : Option Nat :=
  if s = [] then none
  else (hexDigits s 0).bind fun n => if n < 2 ^ bits then some n else none

/-! ### Base 64 -/

/-- The value of a letter of the standard alphabet. -/
def base64Val (c : Char) : Option Nat :=
  if 'A' ≤ c ∧ c ≤ 'Z' then some (c.toNat - 'A'.toNat)
  else if 'a' ≤ c ∧ c ≤ 'z' then some (c.toNat - 'a'.toNat + 26)
  else if '0' ≤ c ∧ c ≤ '9' then some (c.toNat - '0'.toNat + 52)
  else if c = '+' then some 62
  else if c = '/' then some 63
  else none

/-- Quanta of four letters; only the last may be padded, and its spare bits are not
looked at. -/
def base64Quanta : List Char → Option (List UInt8)
  | [] => some []
  | a :: b :: c :: d :: rest =>
    match base64Val a, base64Val b, base64Val c, base64Val d with
    | some a, some b, some c, some d =>
      (base64Quanta rest).map fun bytes =>
        UInt8.ofNat (a * 4 + b / 16) :: UInt8.ofNat (b % 16 * 16 + c / 4)
          :: UInt8.ofNat (c % 4 * 64 + d) :: bytes
    | some a, some b, some c, none =>
      if d = '=' ∧ rest = [] then
        some [UInt8.ofNat (a * 4 + b / 16), UInt8.ofNat (b % 16 * 16 + c / 4)]
      else none
    | some a, some b, none, _ =>
      if c = '=' ∧ d = '=' ∧ rest = [] then some [UInt8.ofNat (a * 4 + b / 16)] else none
    | _, _, _, _ => none
  | _ => none

/-- `base64.StdEncoding.DecodeString`, which skips line breaks. -/
def decodeBase64 (s : List Char) : Option (List UInt8) :=
  base64Quanta (s.filter fun c => c ≠ '\n' ∧ c ≠ '\r')

/-! ### Blanks -/

/-- `unicode.IsSpace`. -/
def isSpace (c : Char) : Bool :=
  c.toNat ∈ [0x09, 0x0a, 0x0b, 0x0c, 0x0d, 0x20, 0x85, 0xa0, 0x1680, 0x2028, 0x2029, 0x202f,
    0x205f, 0x3000] ∨ (0x2000 ≤ c.toNat ∧ c.toNat ≤ 0x200a)

/-- `strings.TrimSpace`. -/
def trimSpace (s : List Char) : List Char :=
  ((s.dropWhile isSpace).reverse.dropWhile isSpace).reverse

theorem trimSpace_eq_self (h : ∀ c ∈ s, isSpace c = false) : trimSpace s = s := by
  have hdrop : ∀ l : List Char, (∀ c ∈ l, isSpace c = false) → l.dropWhile isSpace = l := by
    intro l hl
    cases l with
    | nil => rfl
    | cons c cs =>
      rw [List.dropWhile_cons, hl c List.mem_cons_self]
      rfl
  rw [trimSpace, hdrop s h, hdrop s.reverse fun c hc => h c (List.mem_reverse.mp hc),
    List.reverse_reverse]

theorem isSpace_of_isDigit {c : Char} (h : c.isDigit = true) : isSpace c = false := by
  have hrange : 48 ≤ c.toNat ∧ c.toNat ≤ 57 := by
    simp only [Char.isDigit, Bool.and_eq_true, decide_eq_true_eq] at h
    exact h
  rw [isSpace, decide_eq_false_iff_not]
  simp only [List.mem_cons, List.not_mem_nil, or_false]
  omega

theorem trimSpace_formatInt (n : Int) : trimSpace (formatInt n) = formatInt n := by
  have hdigits : ∀ m, ∀ c ∈ formatUint m, isSpace c = false := fun m c hc =>
    isSpace_of_isDigit (isDigit_of_mem_formatUint hc)
  refine trimSpace_eq_self fun c hc => ?_
  unfold formatInt at hc
  split at hc
  · rcases List.mem_cons.mp hc with rfl | hc
    · decide
    · exact hdigits _ c hc
  · exact hdigits _ c hc

/-! ### Floats

A positive value is carried as a fraction `num / den` and rounded once, so the
result does not depend on the order of intermediate operations. -/

/-- A binary interchange format: the width of the significand with its hidden bit,
and the width of the exponent field. -/
structure FloatFormat where
  precision : Nat
  exponentBits : Nat

def binary32 : FloatFormat := ⟨24, 8⟩

def binary64 : FloatFormat := ⟨53, 11⟩

/-- The exponent of the least significant bit of the smallest positive value. -/
def FloatFormat.minExponent (f : FloatFormat) : Int :=
  2 - (2 ^ (f.exponentBits - 1) : Int) - f.precision + 1

/-- The pattern of `+Inf`. -/
def FloatFormat.infinity (f : FloatFormat) : Nat := (2 ^ f.exponentBits - 1) * 2 ^ (f.precision - 1)

/-- The pattern of `-0`, which is the sign bit. -/
def FloatFormat.signBit (f : FloatFormat) : Nat := 2 ^ (f.exponentBits + f.precision - 1)

/-- `num / (den * 2 ^ e)` rounded to the nearest integer, halves to even. -/
def roundQuotient (num den : Nat) (e : Int) : Nat :=
  let n := num * 2 ^ (-e).toNat
  let d := den * 2 ^ e.toNat
  let q := n / d
  let r := n % d
  if 2 * r < d then q else if 2 * r = d ∧ q % 2 = 0 then q else q + 1

/-- `num / (den * 2 ^ e)` rounded down. -/
def floorQuotient (num den : Nat) (e : Int) : Nat :=
  num * 2 ^ (-e).toNat / (den * 2 ^ e.toNat)

/-- The exponent at which the significand of `num / den` has full precision, or the
least exponent of the format when the value is below the normal range. -/
def FloatFormat.exponentOf (f : FloatFormat) (num den : Nat) : Int :=
  let guess : Int := (Nat.log 2 num : Int) - Nat.log 2 den - (f.precision - 1)
  let e := if floorQuotient num den guess < 2 ^ (f.precision - 1) then guess - 1
    else if 2 ^ f.precision ≤ floorQuotient num den guess then guess + 1 else guess
  max e f.minExponent

/-- The pattern of the value of the format nearest to `num / den`; `none` when that
rounds past the largest finite value. -/
def FloatFormat.nearest (f : FloatFormat) (num den : Nat) : Option Nat :=
  if num = 0 then some 0
  else
    let e := f.exponentOf num den
    let q := roundQuotient num den e
    -- The field of a normal value is one above that of the subnormals of the same
    -- exponent, and the carry of a rounded-up significand is an addition.
    let pattern := (e - f.minExponent).toNat * 2 ^ (f.precision - 1) + q
    if pattern < f.infinity then some pattern else none

/-- The fraction a finite pattern without its sign denotes. -/
def FloatFormat.fraction (f : FloatFormat) (pattern : Nat) : Nat × Nat :=
  let field := pattern / 2 ^ (f.precision - 1)
  let frac := pattern % 2 ^ (f.precision - 1)
  let significand := if field = 0 then frac else frac + 2 ^ (f.precision - 1)
  let e : Int := (max field 1 : Nat) - 1 + f.minExponent
  (significand * 2 ^ e.toNat, 2 ^ (-e).toNat)

/-- The conversion `float32(x)` on bit patterns: nearest value, overflow to an
infinity, every NaN to the quiet one of its sign. -/
def float64To32 (bits : Nat) : Nat :=
  let sign := if binary64.signBit ≤ bits then binary32.signBit else 0
  let magnitude := bits % binary64.signBit
  if binary64.infinity < magnitude then sign + binary32.infinity + 2 ^ 22
  else if magnitude = binary64.infinity then sign + binary32.infinity
  else
    let x := binary64.fraction magnitude
    sign + (binary32.nearest x.1 x.2).getD binary32.infinity

/-- Is every underscore of the text between two digits (or after a base prefix)?
`prev` says whether the character before was a digit or a prefix. -/
def underscoreOK (digit : Char → Bool) : Bool → List Char → Bool
  | _, [] => true
  | prev, '_' :: c :: cs => prev && digit c && underscoreOK digit true cs
  | _, ['_'] => false
  | _, c :: cs => underscoreOK digit (digit c) cs

/-- A mantissa: the digits before and after the point as one number, the number of
digits after the point, whether any digit was seen, and the rest of the text. -/
def mantissa (base : Nat) (digit : Char → Option Nat) :
    List Char → (sawDot sawDigits : Bool) → (value scale : Nat) → Nat × Nat × Bool × List Char
  | [], _, sawDigits, value, scale => (value, scale, sawDigits, [])
  | c :: cs, sawDot, sawDigits, value, scale =>
    if c = '_' then mantissa base digit cs sawDot sawDigits value scale
    else if c = '.' ∧ ¬ sawDot then mantissa base digit cs true sawDigits value scale
    else match digit c with
      | some d => mantissa base digit cs sawDot true (base * value + d)
          (if sawDot then scale + 1 else scale)
      | none => (value, scale, sawDigits, c :: cs)

/-- The digits of an exponent; values of 10000 and above stop growing. -/
def exponentDigits : List Char → Nat → Option Nat
  | [], acc => some acc
  | '_' :: cs, acc => exponentDigits cs acc
  | c :: cs, acc =>
    if c.isDigit then
      exponentDigits cs (if acc < 10000 then 10 * acc + (c.toNat - '0'.toNat) else acc)
    else none

/-- A signed exponent that ends the text. -/
def exponentPart : List Char → Option Int
  | '+' :: c :: cs => if c.isDigit then (exponentDigits (c :: cs) 0).map Int.ofNat else none
  | '-' :: c :: cs => if c.isDigit then (exponentDigits (c :: cs) 0).map fun n => -(n : Int) else none
  | c :: cs => if c.isDigit then (exponentDigits (c :: cs) 0).map Int.ofNat else none
  | [] => none

/-- A finite numeral without its sign, decimal or hexadecimal, as a fraction. -/
def unsignedFraction (s : List Char) : Option (Nat × Nat) :=
  let hex : Bool := match s with
    | '0' :: x :: _ => x = 'x' ∨ x = 'X'
    | _ => false
  if hex then
    let m := mantissa 16 hexVal (s.drop 2) false false 0 0
    if ¬ m.2.2.1 ∨ ¬ underscoreOK (fun c => (hexVal c).isSome) true (s.drop 2) then none
    else match m.2.2.2 with
      | p :: rest =>
        if p = 'p' ∨ p = 'P' then (exponentPart rest).map fun e =>
          let e : Int := e - 4 * m.2.1
          (m.1 * 2 ^ e.toNat, 2 ^ (-e).toNat)
        else none
      | [] => none
  else
    let m := mantissa 10 (fun c => if c.isDigit then some (c.toNat - '0'.toNat) else none) s
      false false 0 0
    if ¬ m.2.2.1 ∨ ¬ underscoreOK Char.isDigit false s then none
    else match m.2.2.2 with
      | [] => some (m.1, 10 ^ m.2.1)
      | p :: rest =>
        if p = 'e' ∨ p = 'E' then (exponentPart rest).map fun e =>
          let e : Int := e - m.2.1
          (m.1 * 10 ^ e.toNat, 10 ^ (-e).toNat)
        else none

/-- `strconv.ParseFloat(s, 64)`, as the bits of the result. -/
def parseFloat (s : List Char) : Option Nat :=
  let sign := match s with
    | '-' :: _ => binary64.signBit
    | _ => 0
  let body := match s with
    | '-' :: cs => cs
    | '+' :: cs => cs
    | cs => cs
  let lower := body.map Char.toLower
  if lower = "inf".toList ∨ lower = "infinity".toList then some (sign + binary64.infinity)
  else if s.map Char.toLower = "nan".toList then some (binary64.infinity + 2 ^ 51 + 1)
  else (unsignedFraction body).bind fun x =>
    (binary64.nearest x.1 x.2).map fun pattern => sign + pattern

-- A decimal that is no binary fraction, and the same value narrowed.
example : parseFloat "0.1".toList = some 0x3fb999999999999a := by decide +kernel
example : float64To32 0x3fb999999999999a = 0x3dcccccd := by decide +kernel

end Strconv
