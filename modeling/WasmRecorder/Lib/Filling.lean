import WasmRecorder.Lib.Slice

/-!
# Filling a list by copying its front

A list whose first element is set is filled with that element by copying what is filled already to
the places after it, either in chunks up to a limit or twice as much each time.

* `copyFront_replicate` — one copy, when the front is filled.
* `fillChunks_set`, `fillDoubling_set` — both loops fill the list.
-/

namespace Filling

open Slice

variable {α : Type}

/-- Copy the first `n` elements to the places from `i` on, as far as the list goes. Also returns how
many were copied. -/
def copyFront (l : List α) (i n : Nat) : List α × Nat :=
  let k := min (l.length - i) n
  (overwrite l i (l.take k), k)

theorem length_copyFront {l : List α} {i : Nat} (hi : i ≤ l.length) (n : Nat) :
    (copyFront l i n).1.length = l.length := by
  refine length_overwrite ?_
  rw [List.length_take]
  omega

def fillChunks (limit : Nat) (hlimit : 0 < limit) (l : List α) (i : Nat) (hi : 0 < i) : List α :=
  if i < l.length then
    fillChunks limit hlimit (copyFront l i (min i limit)).1
      (i + (copyFront l i (min i limit)).2) (Nat.add_pos_left hi _)
  else l
termination_by l.length - i
decreasing_by
  rename_i h
  have hcopied : (copyFront l i (min i limit)).2 = min (l.length - i) (min i limit) := rfl
  rw [length_copyFront (Nat.le_of_lt h)]
  omega

def fillDoubling (l : List α) (i : Nat) (hi : 0 < i) : List α :=
  if i < l.length then fillDoubling (copyFront l i i).1 (i * 2) (Nat.mul_pos hi (by omega)) else l
termination_by l.length - i
decreasing_by
  rename_i h
  rw [length_copyFront (Nat.le_of_lt h)]
  omega

theorem copyFront_replicate {i n : Nat} (hn : n ≤ i) (v : α) (rest : List α) :
    copyFront (List.replicate i v ++ rest) i n =
      (List.replicate (i + min rest.length n) v ++ rest.drop (min rest.length n),
        min rest.length n) := by
  have hfront : (List.replicate i v).length = i := List.length_replicate
  have hk : min ((List.replicate i v ++ rest).length - i) n = min rest.length n := by
    rw [List.length_append, hfront, Nat.add_sub_cancel_left]
  rw [copyFront, hk, overwrite, List.take_left' hfront,
    List.take_append_of_le_length (by rw [hfront]; omega), List.take_replicate,
    Nat.min_eq_left (by omega), List.length_replicate, ← List.drop_drop, List.drop_left' hfront,
    List.replicate_append_replicate]

theorem fillChunks_eq {limit : Nat} (hlimit : 0 < limit) (v : α) (rest : List α) {i : Nat}
    (hi : 0 < i) : fillChunks limit hlimit (List.replicate i v ++ rest) i hi =
      List.replicate (i + rest.length) v := by
  have hlen : (List.replicate i v ++ rest).length = i + rest.length := by
    rw [List.length_append, List.length_replicate]
  rw [fillChunks]
  split_ifs with hmore
  · simp only [copyFront_replicate (Nat.min_le_left i limit)]
    rw [fillChunks_eq hlimit v (rest.drop _), List.length_drop]
    congr 1
    omega
  · rw [List.length_eq_zero_iff.mp (show rest.length = 0 by omega), List.append_nil]
    rfl
termination_by rest.length
decreasing_by
  rw [List.length_drop]
  omega

theorem fillDoubling_eq (v : α) (rest : List α) {i : Nat} (hi : 0 < i) :
    fillDoubling (List.replicate i v ++ rest) i hi = List.replicate (i + rest.length) v := by
  have hlen : (List.replicate i v ++ rest).length = i + rest.length := by
    rw [List.length_append, List.length_replicate]
  rw [fillDoubling]
  split_ifs with hmore
  · rw [copyFront_replicate (Nat.le_refl i)]
    rcases Nat.le_total i rest.length with hle | hle
    · simp only [Nat.min_eq_right hle, ← Nat.mul_two]
      rw [fillDoubling_eq v (rest.drop i), List.length_drop]
      congr 1
      omega
    · simp only [Nat.min_eq_left hle, List.drop_length, List.append_nil]
      rw [fillDoubling, List.length_replicate, if_neg (by omega)]
  · rw [List.length_eq_zero_iff.mp (show rest.length = 0 by omega), List.append_nil]
    rfl
termination_by rest.length
decreasing_by
  rw [List.length_drop]
  omega

theorem fillChunks_set {limit : Nat} (hlimit : 0 < limit) {l : List α} (hl : l ≠ []) (v : α) :
    fillChunks limit hlimit (l.set 0 v) 1 Nat.one_pos = List.replicate l.length v := by
  obtain ⟨x, rest, rfl⟩ := List.exists_cons_of_ne_nil hl
  rw [List.set_cons_zero, List.length_cons, Nat.add_comm]
  exact fillChunks_eq hlimit v rest Nat.one_pos

theorem fillDoubling_set {l : List α} (hl : l ≠ []) (v : α) :
    fillDoubling (l.set 0 v) 1 Nat.one_pos = List.replicate l.length v := by
  obtain ⟨x, rest, rfl⟩ := List.exists_cons_of_ne_nil hl
  rw [List.set_cons_zero, List.length_cons, Nat.add_comm]
  exact fillDoubling_eq v rest Nat.one_pos

end Filling
