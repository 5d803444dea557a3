import WasmRecorder.Lib.Partition
import WasmRecorder.Wasmsnapshot.Materialise

/-!
# Which bytes of a memory its regions describe

The regions of a memory are put into an image of zeros one after another. What is compared with the
size of the memory at the end is a running total of the bytes they wrote, and two regions that write
the same bytes count them twice.

* `materialiseMemory_covers` — an image is returned only if the regions write as many bytes as it
  has, all of them inside it.
* `materialiseMemory_exact_iff` — every byte of an image that is returned is written by exactly one
  region if and only if no two regions overlap.
-/

namespace Wasmsnapshot

open Checked Fallible

/-- How many bytes a region writes. -/
def Region.written (r : Region) : Nat :=
  match r.kind with
  | .full _ => r.size.toNat
  | kind => kind.hashes.length * pageSize

/-- The addresses a region writes to. -/
def Region.range (r : Region) : Finset Nat := Finset.Ico r.base.toNat (r.base.toNat + r.written)

theorem Region.card_range (r : Region) : r.range.card = r.written := by
  rw [Region.range, Nat.card_Ico, Nat.add_sub_cancel_left]

section Memory

variable {hashPage : Bytes → Uint128} {regions : List Region} {inline : Bytes} {t : Tiers}
  {size : UInt64}

theorem Region.Fits.range_subset {r : Region} {size : Nat} (h : r.Fits hashPage inline t size) :
    r.range ⊆ Finset.range size := by
  obtain ⟨-, h⟩ := h
  intro x hx
  rw [Region.range, Finset.mem_Ico, Region.written] at hx
  rw [Finset.mem_range]
  have hpages : (r.kind.hashes ≠ [] → r.base.toNat + r.kind.hashes.length * pageSize ≤ size) →
      x < r.base.toNat + r.kind.hashes.length * pageSize → r.base.toNat ≤ x → x < size := by
    intro hend hlt hle
    by_cases hnil : r.kind.hashes = []
    · rw [hnil, List.length_nil] at hlt
      omega
    · have := hend hnil
      omega
  cases hkind : r.kind with
  | full fileOffset =>
    rw [hkind] at h hx
    have hend := h.1.2
    rw [toNat_add_of_lt h.1.1] at hend
    dsimp only at hx
    omega
  | hashRef hashes =>
    rw [hkind] at h hx hpages
    exact hpages h.2 hx.2 hx.1
  | runHashRef runs =>
    rw [hkind] at h hx hpages
    exact hpages h.2 hx.2 hx.1

theorem Region.covers_eq (r : Region) : r.covers = UInt64.ofNat r.written := by
  rw [Region.covers, Region.written]
  cases r.kind with
  | full fileOffset => exact UInt64.ofNat_toNat.symm
  | hashRef hashes => exact (UInt64.ofNat_mul _ _).symm
  | runHashRef runs => exact (UInt64.ofNat_mul _ _).symm

theorem sum_covers (regions : List Region) :
    (regions.map Region.covers).sum = UInt64.ofNat (regions.map Region.written).sum := by
  induction regions with
  | nil => rfl
  | cons r regions ih =>
    rw [List.map_cons, List.map_cons, List.sum_cons, List.sum_cons, ih, Region.covers_eq,
      UInt64.ofNat_add]

/-- An image is returned only if the regions write as many bytes as it has, all of them inside it.
The total is compared as a 64-bit word. -/
theorem materialiseMemory_covers (hwrap : (regions.map Region.written).sum < 2 ^ 64) {out : Bytes}
    (h : materialiseMemory hashPage regions inline t size = .ok out) :
    (∀ r ∈ regions, r.range ⊆ Finset.range size.toNat) ∧
      (regions.map Region.written).sum = size.toNat := by
  have hsize : size.toNat ≤ maxAlloc := by
    rw [materialiseMemory] at h
    obtain ⟨image, himage, -⟩ := bind_eq_ok.mp h
    rw [make] at himage
    split at himage
    · omega
    · cases himage
  obtain ⟨hfits, hsum⟩ := (materialiseMemory_ok_iff hsize).mp ⟨out, h⟩
  refine ⟨fun r hr => (hfits r hr).range_subset, ?_⟩
  rw [← hsum, sum_covers, UInt64.toNat_ofNat_of_lt' hwrap]

theorem sum_card_range (regions : List Region) :
    ∑ i : Fin regions.length, (regions.get i).range.card = (regions.map Region.written).sum := by
  simp only [Region.card_range]
  exact Fin.sum_univ_fun_getElem regions Region.written

/-- **A materialised memory is fully described exactly if no two regions overlap.** The total the
code compares with the size cannot tell a byte that is written twice from one that is not
written. -/
theorem materialiseMemory_exact_iff (hwrap : (regions.map Region.written).sum < 2 ^ 64)
    {out : Bytes} (h : materialiseMemory hashPage regions inline t size = .ok out) :
    (∀ x < size.toNat, ∃! i : Fin regions.length, x ∈ (regions.get i).range) ↔
      Pairwise fun i j : Fin regions.length =>
        Disjoint (regions.get i).range (regions.get j).range := by
  obtain ⟨hsub, hsum⟩ := materialiseMemory_covers hwrap h
  rw [← Partition.existsUnique_iff_disjoint (fun i => hsub _ (regions.get_mem i))
    (by rw [sum_card_range, hsum, Finset.card_range])]
  simp only [Finset.mem_range]

end Memory

/-- Two regions next to each other, in a memory of two bytes. -/
def adjacent : List Region := [⟨0, 1, 0, 0, .full 0⟩, ⟨1, 1, 0, 0, .full 0⟩]

theorem materialiseMemory_exact_adjacent :
    materialiseMemory (fun _ => ⟨0, 0⟩) adjacent [7] ⟨∅, none⟩ 2 = .ok [7, 7] ∧
      ∀ x < (2 : UInt64).toNat, ∃! i : Fin adjacent.length, x ∈ (adjacent.get i).range := by
  have hok : materialiseMemory (fun _ => ⟨0, 0⟩) adjacent [7] ⟨∅, none⟩ 2 = .ok [7, 7] := by decide
  refine ⟨hok, (materialiseMemory_exact_iff (by decide) hok).mpr fun i j hne => ?_⟩
  revert i j
  decide

/-- Two regions that write the same byte of a memory of two bytes. -/
def overlapping : List Region := [⟨0, 1, 0, 0, .full 0⟩, ⟨0, 1, 0, 0, .full 0⟩]

/-- The total is two bytes, and the second byte is left at zero. -/
theorem materialiseMemory_overlapping :
    materialiseMemory (fun _ => ⟨0, 0⟩) overlapping [7] ⟨∅, none⟩ 2 = .ok [7, 0] ∧
      (∀ r ∈ overlapping, r.base.toNat + r.size.toNat < 2 ^ 64) ∧
      (overlapping.map Region.written).sum < 2 ^ 64 ∧
      ¬ ∀ x < (2 : UInt64).toNat, ∃! i : Fin overlapping.length, x ∈ (overlapping.get i).range := by
  refine ⟨by decide, by decide, by decide, fun h => ?_⟩
  obtain ⟨i, hi, -⟩ := h 1 (by decide)
  have hnone : ∀ i : Fin overlapping.length, 1 ∉ (overlapping.get i).range := by decide
  exact hnone i hi

end Wasmsnapshot
