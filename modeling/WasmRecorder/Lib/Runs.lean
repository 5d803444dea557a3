import Mathlib

/-!
# Cutting a list into runs

`runs n l` cuts `l` into consecutive stretches of `n` entries, the last of which may be shorter.

* `flatten_runs` — nothing is lost.
* `length_runs` — how many runs there are; it depends on the length of the list only.
-/

namespace Runs

variable {α : Type}

/-- Consecutive stretches of `n` entries. -/
def runs (n : Nat) (l : List α) : List (List α) :=
  if l = [] ∨ n = 0 then [] else l.take n :: runs n (l.drop n)
termination_by l.length
decreasing_by
  rename_i h
  rw [not_or] at h
  have := List.length_pos_of_ne_nil h.1
  rw [List.length_drop]
  omega

@[simp] theorem runs_nil (n : Nat) : runs n ([] : List α) = [] := by
  rw [runs, if_pos (.inl rfl)]

theorem runs_of_ne_nil {n : Nat} (hn : 0 < n) {l : List α} (hl : l ≠ []) :
    runs n l = l.take n :: runs n (l.drop n) := by
  rw [runs, if_neg (not_or.mpr ⟨hl, Nat.ne_of_gt hn⟩)]

theorem runs_of_length_eq {n : Nat} (hn : 0 < n) {l : List α} (hl : l.length = n) :
    runs n l = [l] := by
  have hne : l ≠ [] := by
    rintro rfl
    rw [← hl] at hn
    exact absurd hn (Nat.lt_irrefl 0)
  rw [runs_of_ne_nil hn hne, List.take_of_length_le (Nat.le_of_eq hl),
    List.drop_eq_nil_of_le (Nat.le_of_eq hl), runs_nil]

theorem induction {n : Nat} (hn : 0 < n) {motive : List α → Prop} (nil : motive [])
    (step : ∀ l, l ≠ [] → motive (l.drop n) → motive l) (l : List α) : motive l := by
  induction hlen : l.length using Nat.strongRecOn generalizing l with
  | ind m ih =>
    by_cases hl : l = []
    · rw [hl]
      exact nil
    · have := List.length_pos_of_ne_nil hl
      exact step l hl (ih _ (by rw [List.length_drop]; omega) _ rfl)

variable {n : Nat} (hn : 0 < n) (l : List α)

include hn

theorem flatten_runs : (runs n l).flatten = l := by
  induction l using induction hn with
  | nil => rw [runs_nil]; rfl
  | step l hl ih => rw [runs_of_ne_nil hn hl, List.flatten_cons, ih, List.take_append_drop]

theorem length_le_of_mem_runs : ∀ r ∈ runs n l, r.length ≤ n := by
  induction l using induction hn with
  | nil => rw [runs_nil]; exact List.forall_mem_nil _
  | step l hl ih =>
    rw [runs_of_ne_nil hn hl, List.forall_mem_cons]
    exact ⟨List.length_take_le n l, ih⟩

theorem ne_nil_of_mem_runs : ∀ r ∈ runs n l, r ≠ [] := by
  induction l using induction hn with
  | nil => rw [runs_nil]; exact List.forall_mem_nil _
  | step l hl ih =>
    rw [runs_of_ne_nil hn hl, List.forall_mem_cons]
    refine ⟨fun h => ?_, ih⟩
    rcases List.take_eq_nil_iff.mp h with h | h
    · omega
    · exact hl h

theorem length_runs : (runs n l).length = (l.length + n - 1) / n := by
  induction l using induction hn with
  | nil =>
    rw [runs_nil, List.length_nil, List.length_nil, Nat.zero_add, Nat.div_eq_of_lt (by omega)]
  | step l hl ih =>
    have := List.length_pos_of_ne_nil hl
    rw [runs_of_ne_nil hn hl, List.length_cons, ih, List.length_drop]
    rcases Nat.le_total n l.length with hle | hle
    · rw [← Nat.add_div_right _ hn]
      congr 1
      omega
    · rw [Nat.sub_eq_zero_of_le hle, Nat.zero_add, Nat.div_eq_of_lt (by omega),
        Nat.div_eq_of_lt_le (k := 1) (by omega) (by omega)]

end Runs
