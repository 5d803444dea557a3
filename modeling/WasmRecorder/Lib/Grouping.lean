import Mathlib

/-!
# Grouping by a key

* `flatMap_filter_perm` — a list cut into the groups of its keys, and put together again.
-/

namespace Grouping

variable {α κ : Type} [DecidableEq κ]

theorem flatMap_filter_cons_of_notMem {f : α → κ} {a : α} {l : List α} {keys : List κ}
    (h : f a ∉ keys) : (keys.flatMap fun k => (a :: l).filter fun b => f b = k) =
      keys.flatMap fun k => l.filter fun b => f b = k := by
  induction keys with
  | nil => rfl
  | cons k keys ih =>
    rw [List.mem_cons, not_or] at h
    rw [List.flatMap_cons, List.flatMap_cons, ih h.2,
      List.filter_cons_of_neg (by simpa using h.1)]

theorem flatMap_filter_perm {f : α → κ} {keys : List κ} (hkeys : keys.Nodup) {l : List α}
    (hl : ∀ a ∈ l, f a ∈ keys) : (keys.flatMap fun k => l.filter fun a => f a = k).Perm l := by
  induction l with
  | nil =>
    have hnil : (keys.flatMap fun k => ([] : List α).filter fun a => f a = k) = [] :=
      List.flatMap_eq_nil_iff.mpr fun _ _ => rfl
    rw [hnil]
  | cons a l ih =>
    -- the group of the new entry is the only one that changes
    obtain ⟨before, after, rfl⟩ := List.append_of_mem (hl a List.mem_cons_self)
    have hnot : f a ∉ before ∧ f a ∉ after := by
      rw [List.perm_middle.nodup_iff, List.nodup_cons, List.mem_append, not_or] at hkeys
      exact hkeys.1
    have ih := ih fun b hb => hl b (List.mem_cons_of_mem a hb)
    rw [List.flatMap_append, List.flatMap_cons, flatMap_filter_cons_of_notMem hnot.1,
      flatMap_filter_cons_of_notMem hnot.2, List.filter_cons_of_pos (by simp), List.cons_append]
    rw [List.flatMap_append, List.flatMap_cons] at ih
    exact List.perm_middle.trans (ih.cons a)

end Grouping
