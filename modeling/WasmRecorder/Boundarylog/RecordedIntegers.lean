import WasmRecorder.Boundarylog.Values

/-!
# Recorded integers

A recorded integer is a decimal. It is read as a signed 64-bit number, or else as an unsigned one,
and then narrowed to the type of its slot.

* `decode_integer_iff` — every integer of the slot's range is read without loss; an integer outside
  that range is refused in an `i64` slot, and in an `i32` slot only if it does not fit 64 bits either.
* `decode_integer_truncates` — `2 ^ 32` is read as zero in an `i32` slot.
-/

namespace Boundarylog

/-- The integers that a slot can hold, signed or unsigned. -/
def ScalarType.Holds (t : ScalarType) (n : Int) : Prop := -2 ^ (t.width - 1) ≤ n ∧ n < 2 ^ t.width

def RawValue.isInteger (r : RawValue) : Prop := r.kind = "Int".toList ∨ r.kind = "Raw".toList

/-- The integers that one of the two readers accepts, signed or unsigned 64 bits. -/
def ReadsAsInteger (text : Text) (n : Int) : Prop :=
  -2 ^ 63 ≤ n ∧ n < 2 ^ 63 ∨ Strconv.isSigned text = false ∧ n < 2 ^ 64

theorem decode_of_integer {t : ScalarType} (ht : t = .i32 ∨ t = .i64) (r : RawValue) :
    r.decode t = r.decodeInteger t := by
  rcases ht with rfl | rfl
  · rfl
  · rfl

theorem decode_integer_eq {t : ScalarType} (ht : t = .i32 ∨ t = .i64) {r : RawValue} {n : Int}
    (hkind : r.isInteger) (htext : Strconv.integerOf (Strconv.trimSpace r.text) = some n) :
    (ReadsAsInteger (Strconv.trimSpace r.text) n → r.decode t = .ok ⟨t, t.integerBits n⟩) ∧
      (¬ ReadsAsInteger (Strconv.trimSpace r.text) n → r.decode t = .error (.notInteger r t)) := by
  have hint : Strconv.parseInt (Strconv.trimSpace r.text) 64 =
      if -2 ^ 63 ≤ n ∧ n < 2 ^ 63 then some n else none :=
    Strconv.parseInt_of_integerOf htext (by decide)
  have huint : Strconv.parseUint (Strconv.trimSpace r.text) 64 =
      if Strconv.isSigned (Strconv.trimSpace r.text) = false ∧ n < 2 ^ 64 then some n.toNat
      else none := Strconv.parseUint_of_integerOf htext 64
  rw [RawValue.isInteger] at hkind
  rw [decode_of_integer ht, RawValue.decodeInteger, if_pos hkind]
  dsimp only
  rw [hint, huint]
  by_cases hsigned : -2 ^ 63 ≤ n ∧ n < 2 ^ 63
  · rw [if_pos hsigned]
    exact ⟨fun _ => rfl, fun hnot => absurd (.inl hsigned) hnot⟩
  rw [if_neg hsigned]
  by_cases hunsigned : Strconv.isSigned (Strconv.trimSpace r.text) = false ∧ n < 2 ^ 64
  · rw [if_pos hunsigned]
    refine ⟨fun _ => ?_, fun hnot => absurd (.inr hunsigned) hnot⟩
    -- without a sign the integer is not negative
    have hnonneg : 0 ≤ n := by
      rw [Strconv.integerOf_of_unsigned hunsigned.1] at htext
      obtain ⟨m, -, rfl⟩ := Option.map_eq_some_iff.mp htext
      exact Int.natCast_nonneg m
    dsimp only
    rw [Int.toNat_of_nonneg hnonneg]
  · rw [if_neg hunsigned]
    exact ⟨fun hreads => absurd hreads (not_or.mpr ⟨hsigned, hunsigned⟩), fun _ => rfl⟩

/-- Only the slots of `i32` are in danger: an integer that is not theirs but fits 64 bits. -/
def Misfit (r : RawValue) (t : ScalarType) (n : Int) : Prop :=
  t = .i32 ∧ r.isInteger ∧ ReadsAsInteger (Strconv.trimSpace r.text) n ∧ ¬ t.Holds n

theorem integerBits_eq {t : ScalarType} (ht : t = .i32 ∨ t = .i64) (n : Int) :
    t.integerBits n = UInt64.ofNat (n % 2 ^ t.width).toNat := by
  rcases ht with rfl | rfl
  · rfl
  · rfl

/-- **Recorded integers.** The decimal of every integer of the slot's range is read as its bits. A text
that spells an integer outside the range is refused, if and only if the slot is not an `i32` slot with
an integer of 64 bits. -/
theorem decode_integer_iff (t : ScalarType) (ht : t = .i32 ∨ t = .i64) :
    (∀ n kind, t.Holds n → kind = "Int".toList ∨ kind = "Raw".toList →
      RawValue.decode ⟨kind, Strconv.formatInt n⟩ t =
        .ok ⟨t, UInt64.ofNat (n % 2 ^ t.width).toNat⟩) ∧
    ∀ (r : RawValue) n, Strconv.integerOf (Strconv.trimSpace r.text) = some n →
      (((∃ v, r.decode t = .ok v) → t.Holds n) ↔ ¬ Misfit r t n) := by
  have hrange : ∀ n, t.Holds n → -2 ^ 63 ≤ n ∧ n < 2 ^ 64 := by
    rintro n ⟨hlow, hhigh⟩
    rcases ht with rfl | rfl
    · simp only [ScalarType.width] at hlow hhigh
      omega
    · exact ⟨hlow, hhigh⟩
  refine ⟨fun n kind hn hkind => ?_, fun r n htext => ?_⟩
  · have htrim : Strconv.trimSpace (Strconv.formatInt n) = Strconv.formatInt n :=
      Strconv.trimSpace_formatInt n
    have hreads : ReadsAsInteger (Strconv.trimSpace (Strconv.formatInt n)) n := by
      rw [htrim]
      rcases Int.lt_or_le n (2 ^ 63) with hlt | hle
      · exact .inl ⟨(hrange n hn).1, hlt⟩
      · exact .inr ⟨Strconv.isSigned_formatInt (by omega), (hrange n hn).2⟩
    have htext : Strconv.integerOf (Strconv.trimSpace (Strconv.formatInt n)) = some n := by
      rw [htrim]
      exact Strconv.integerOf_formatInt n
    have hinteger : RawValue.isInteger ⟨kind, Strconv.formatInt n⟩ := hkind
    rw [← integerBits_eq ht]
    exact (decode_integer_eq ht hinteger htext).1 hreads
  · constructor
    · rintro hholds ⟨-, hkind, hreads, hnot⟩
      exact hnot (hholds ⟨_, (decode_integer_eq ht hkind htext).1 hreads⟩)
    · rintro hfit ⟨v, hv⟩
      by_contra hnot
      have hkind : r.isInteger := by
        by_contra hkind
        rw [RawValue.isInteger] at hkind
        rw [decode_of_integer ht, RawValue.decodeInteger, if_neg hkind] at hv
        cases hv
      have hreads : ReadsAsInteger (Strconv.trimSpace r.text) n := by
        by_contra hreads
        rw [(decode_integer_eq ht hkind htext).2 hreads] at hv
        cases hv
      rcases ht with rfl | rfl
      · exact hfit ⟨rfl, hkind, hreads, hnot⟩
      · -- the two readers accept exactly what fits
        refine hnot ?_
        rcases hreads with ⟨hlow, hhigh⟩ | ⟨hsigned, hhigh⟩
        · exact ⟨hlow, hhigh.trans (by decide)⟩
        · rw [Strconv.integerOf_of_unsigned hsigned] at htext
          obtain ⟨m, -, rfl⟩ := Option.map_eq_some_iff.mp htext
          exact ⟨le_trans (by decide) (Int.natCast_nonneg m), hhigh⟩

theorem decode_integer_iff_minusOne :
    RawValue.decode ⟨"Raw".toList, "-1".toList⟩ .i64 = .ok ⟨.i64, 0xffffffffffffffff⟩ := by
  have hholds : ScalarType.i64.Holds (-1) := by
    constructor
    · decide
    · decide
  have h := (decode_integer_iff .i64 (.inr rfl)).1 (-1) "Raw".toList hholds (.inr rfl)
  have htext : Strconv.formatInt (-1) = "-1".toList := by decide
  have hbits : UInt64.ofNat ((-1 : Int) % 2 ^ ScalarType.i64.width).toNat = 0xffffffffffffffff := by
    decide +kernel
  rw [htext, hbits] at h
  exact h

/-- **An integer that does not fit is truncated**: `2 ^ 32` in an `i32` slot is read as zero. -/
theorem decode_integer_truncates :
    Strconv.integerOf "4294967296".toList = some (2 ^ 32) ∧ ¬ ScalarType.i32.Holds (2 ^ 32) ∧
      RawValue.decode ⟨"Int".toList, "4294967296".toList⟩ .i32 = .ok ⟨.i32, 0⟩ := by
  refine ⟨by decide +kernel, fun h => ?_, by decide +kernel⟩
  exact absurd h.2 (by decide)

end Boundarylog
