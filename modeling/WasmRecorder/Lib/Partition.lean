import Mathlib

/-!
# Parts that are as large together as the whole

A sum of sizes says nothing about where the parts lie. It does once the parts are known not to
overlap.

* `existsUnique_iff_disjoint` — parts inside a finite set whose sizes add up to the size of the set:
  every element lies in exactly one of them if and only if no two of them overlap.
-/

namespace Partition

variable {ι α : Type} [Fintype ι] [DecidableEq α] {whole : Finset α} {part : ι → Finset α}

theorem biUnion_eq_of_disjoint (hsub : ∀ i, part i ⊆ whole)
    (hcard : ∑ i, (part i).card = whole.card)
    (hdisjoint : Pairwise fun i j => Disjoint (part i) (part j)) :
    Finset.univ.biUnion part = whole := by
  have hunion : (Finset.univ.biUnion part).card = ∑ i, (part i).card :=
    Finset.card_biUnion fun i _ j _ hne => hdisjoint hne
  refine Finset.eq_of_subset_of_card_le (Finset.biUnion_subset.mpr fun i _ => hsub i) ?_
  rw [hunion, hcard]

theorem existsUnique_iff_disjoint (hsub : ∀ i, part i ⊆ whole)
    (hcard : ∑ i, (part i).card = whole.card) :
    (∀ x ∈ whole, ∃! i, x ∈ part i) ↔ Pairwise fun i j => Disjoint (part i) (part j) := by
  constructor
  · intro hone i j hne
    rw [Finset.disjoint_left]
    intro x hi hj
    exact hne ((hone x (hsub i hi)).unique hi hj)
  · intro hdisjoint x hx
    rw [← biUnion_eq_of_disjoint hsub hcard hdisjoint, Finset.mem_biUnion] at hx
    obtain ⟨i, -, hi⟩ := hx
    refine ⟨i, hi, fun j hj => ?_⟩
    by_contra hne
    exact Finset.disjoint_left.mp (hdisjoint hne) hj hi

end Partition
