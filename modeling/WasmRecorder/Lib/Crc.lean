import Mathlib

/-!
# Cyclic redundancy checks

Checksums of 32 bits, computed bit by bit with the lowest bit first, as the reflected algorithms do.
They are over any polynomial whose highest bit is set, so that no step loses information.

* `checksum` — the checksum of some bytes.
* `checksum_ne` — changing one byte changes it.
-/

namespace Crc

/-- Move the remainder by one bit. -/
def shift (poly s : BitVec 32) : BitVec 32 :=
  if s.getLsbD 0 then (s >>> 1) ^^^ poly else s >>> 1

/-- Take up one byte. -/
def step (poly s : BitVec 32) (b : UInt8) : BitVec 32 :=
  (shift poly)^[8] (s ^^^ b.toBitVec.setWidth 32)

def checksum (poly : BitVec 32) (bytes : List UInt8) : BitVec 32 :=
  ~~~ (bytes.foldl (step poly) (~~~ 0))

variable {poly : BitVec 32}

/-- The highest bit tells which bit was moved out. -/
theorem msb_shift (h : poly.msb = true) (s : BitVec 32) : (shift poly s).msb = s.getLsbD 0 := by
  rw [shift]
  split
  · next hs =>
    rw [BitVec.msb_xor, BitVec.msb_ushiftRight, h, hs]
    rfl
  · next hs =>
    rw [Bool.not_eq_true] at hs
    rw [BitVec.msb_ushiftRight, hs]
    rfl

theorem shift_injective (h : poly.msb = true) : Function.Injective (shift poly) := by
  intro s t hst
  have hlow : s.getLsbD 0 = t.getLsbD 0 := by rw [← msb_shift h s, ← msb_shift h t, hst]
  have hhigh : s >>> 1 = t >>> 1 := by
    rw [shift, shift, ← hlow] at hst
    split at hst
    · exact (BitVec.xor_left_inj _).mp hst
    · exact hst
  refine BitVec.eq_of_getLsbD_eq fun i hi => ?_
  cases i with
  | zero => exact hlow
  | succ i =>
    have hbit := congrArg (BitVec.getLsbD · i) hhigh
    simpa only [BitVec.getLsbD_ushiftRight, Nat.add_comm 1 i] using hbit

theorem step_left_injective (h : poly.msb = true) (b : UInt8) :
    Function.Injective (step poly · b) := fun _ _ hst =>
  (BitVec.xor_left_inj _).mp ((shift_injective h).iterate 8 hst)

theorem step_right_injective (h : poly.msb = true) (s : BitVec 32) :
    Function.Injective (step poly s) := by
  intro a b hab
  have hwide := (BitVec.xor_right_inj _).mp ((shift_injective h).iterate 8 hab)
  refine UInt8.toBitVec_inj.mp (BitVec.eq_of_toNat_eq ?_)
  have hnat := congrArg BitVec.toNat hwide
  rwa [BitVec.toNat_setWidth_of_le (by decide), BitVec.toNat_setWidth_of_le (by decide)] at hnat

theorem foldl_step_injective (h : poly.msb = true) (bytes : List UInt8) :
    Function.Injective (bytes.foldl (step poly)) := by
  induction bytes with
  | nil => exact fun _ _ hst => hst
  | cons b bytes ih => exact fun s t hst => step_left_injective h b (ih hst)

/-- Changing one byte changes the checksum. -/
theorem checksum_ne (h : poly.msb = true) (before after : List UInt8) {a b : UInt8} (hab : a ≠ b) :
    checksum poly (before ++ a :: after) ≠ checksum poly (before ++ b :: after) := by
  intro heq
  have hfold := BitVec.not_inj.mp heq
  rw [List.foldl_append, List.foldl_append, List.foldl_cons, List.foldl_cons] at hfold
  exact hab (step_right_injective h _ (foldl_step_injective h after hfold))

end Crc
