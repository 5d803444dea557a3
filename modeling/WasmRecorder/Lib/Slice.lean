import Mathlib

/-!
# Stretches of a list

`slice l i j` is the stretch of `l` from position `i` up to, not including, `j`.

* `overwrite l i b` is `l` with `b` written over it from position `i` on; the
  stretch that was written over is `b` (`slice_overwrite_self`).
-/

namespace Slice

variable {α : Type}

/-- The entries from position `i` up to `j`. -/
def slice (l : List α) (i j : Nat) : List α := (l.take j).drop i

theorem slice_self (l : List α) (i : Nat) : slice l i i = [] := by
  rw [slice, List.drop_eq_nil_iff]
  exact List.length_take_le i l

theorem slice_zero (l : List α) (j : Nat) : slice l 0 j = l.take j := List.drop_zero

variable {l : List α} {i : Nat}

theorem slice_append {j k : Nat} (hij : i ≤ j) (hjk : j ≤ k) :
    slice l i j ++ slice l j k = slice l i k := by
  have hsplit : l.take j = (l.take k).take j := by rw [List.take_take, Nat.min_eq_left hjk]
  rw [slice, slice, slice, hsplit, List.drop_take]
  generalize l.take k = m
  have hdrop : m.drop j = (m.drop i).drop (j - i) := by
    rw [List.drop_drop, Nat.add_sub_cancel' hij]
  rw [hdrop, List.take_append_drop]

theorem getElem?_slice (l : List α) (i j n : Nat) :
    (slice l i j)[n]? = if i + n < j then l[i + n]? else none := by
  rw [slice, List.getElem?_drop, List.getElem?_take]

theorem take_slice (l : List α) (i j n : Nat) :
    (slice l i j).take n = slice l i (min j (i + n)) := by
  rw [slice, slice, List.drop_take, List.drop_take, List.take_take]
  congr 1
  omega

theorem slice_slice {j a b : Nat} (h : i + b ≤ j) :
    slice (slice l i j) a b = slice l (i + a) (i + b) := by
  have hcut : slice (slice l i j) a b = ((slice l i j).take b).drop a := rfl
  rw [hcut, take_slice, Nat.min_eq_right h, slice, slice, List.drop_drop]

theorem slice_singleton {x : α} (hx : l[i]? = some x) : slice l i (i + 1) = [x] := by
  refine List.ext_getElem? fun n => ?_
  rw [getElem?_slice]
  cases n with
  | zero => rw [if_pos (by omega), Nat.add_zero, hx]; rfl
  | succ n => rw [if_neg (by omega)]; rfl

theorem slice_succ {j : Nat} {x : α} (hij : i ≤ j) (hx : l[j]? = some x) :
    slice l i (j + 1) = slice l i j ++ [x] := by
  rw [← slice_append hij (Nat.le_succ j), slice_singleton hx]

theorem slice_cons {j : Nat} {x : α} (hij : i < j) (hx : l[i]? = some x) :
    slice l i j = x :: slice l (i + 1) j := by
  rw [← slice_append (Nat.le_succ i) hij, slice_singleton hx]
  rfl

theorem length_slice {j : Nat} (hj : j ≤ l.length) : (slice l i j).length = j - i := by
  rw [slice, List.length_drop, List.length_take, Nat.min_eq_left hj]

theorem length_flatten_of_forall {pieces : List (List α)} {n : Nat}
    (h : ∀ p ∈ pieces, p.length = n) : pieces.flatten.length = pieces.length * n := by
  induction pieces with
  | nil => rw [List.flatten_nil, List.length_nil, List.length_nil, Nat.zero_mul]
  | cons p pieces ih =>
    rw [List.flatten_cons, List.length_append, h p List.mem_cons_self,
      ih fun q hq => h q (List.mem_cons_of_mem p hq), List.length_cons, Nat.succ_mul, Nat.add_comm]

theorem slice_flatten {pieces : List (List α)} {n : Nat} (hlen : ∀ p ∈ pieces, p.length = n)
    {p : List α} (hp : pieces[i]? = some p) {before after : List α} {off : Nat}
    (hoff : before.length = off) :
    slice (before ++ pieces.flatten ++ after) (off + i * n) (off + (i + 1) * n) = p := by
  induction pieces generalizing before off i with
  | nil => cases hp
  | cons q pieces ih =>
    have hq : q.length = n := hlen q List.mem_cons_self
    rw [List.flatten_cons]
    cases i with
    | zero =>
      cases hp
      rw [slice, Nat.zero_mul, Nat.zero_add, Nat.one_mul, Nat.add_zero, List.append_assoc,
        List.append_assoc, ← List.append_assoc,
        List.take_left' (by rw [List.length_append, hoff, hq]), List.drop_left' hoff]
    | succ i =>
      have hlo : off + (i + 1) * n = off + n + i * n := by rw [Nat.succ_mul]; omega
      have hhi : off + (i + 1 + 1) * n = off + n + (i + 1) * n := by rw [Nat.succ_mul (i + 1)]; omega
      rw [← List.append_assoc, hlo, hhi]
      exact ih (fun p hp => hlen p (List.mem_cons_of_mem q hp)) hp
        (by rw [List.length_append, hoff, hq])

theorem slice_congr {l' : List α} {n j : Nat} (h : l'.take n = l.take n) (hj : j ≤ n) :
    slice l' i j = slice l i j := by
  have htake : l'.take j = l.take j := by
    have := congrArg (List.take j) h
    rwa [List.take_take, List.take_take, Nat.min_eq_left hj] at this
  rw [slice, slice, htake]

theorem slice_eq_iff {x : List α} :
    slice l i (i + x.length) = x ↔ ∀ n < x.length, l[i + n]? = x[n]? := by
  constructor
  · intro heq n hn
    have hget := getElem?_slice l i (i + x.length) n
    rwa [heq, if_pos (by omega), eq_comm] at hget
  · intro hbytes
    refine List.ext_getElem? fun n => ?_
    rw [getElem?_slice]
    split
    · exact hbytes n (by omega)
    · rw [List.getElem?_eq_none (by omega)]

/-- Write `b` over `l` from position `i` on. -/
def overwrite (l : List α) (i : Nat) (b : List α) : List α :=
  l.take i ++ b ++ l.drop (i + b.length)

theorem length_overwrite {b : List α} (h : i + b.length ≤ l.length) :
    (overwrite l i b).length = l.length := by
  simp only [overwrite, List.length_append, List.length_take, List.length_drop]
  omega

theorem getElem?_overwrite {b : List α} (h : i + b.length ≤ l.length) (n : Nat) :
    (overwrite l i b)[n]? = if i ≤ n ∧ n < i + b.length then b[n - i]? else l[n]? := by
  have hi : (l.take i).length = i := by
    rw [List.length_take]
    omega
  rw [overwrite, List.append_assoc, List.getElem?_append, hi]
  by_cases hn : n < i
  · rw [if_pos hn, if_neg (by omega), List.getElem?_take, if_pos hn]
  · rw [if_neg hn, List.getElem?_append]
    by_cases hb : n - i < b.length
    · rw [if_pos hb, if_pos (by omega)]
    · rw [if_neg hb, if_neg (by omega), List.getElem?_drop]
      congr 1
      omega

theorem slice_overwrite_self {b : List α} {j : Nat} (hj : i + b.length ≤ j) (h : j ≤ l.length) :
    slice (overwrite l i b) i j = b ++ slice l (i + b.length) j := by
  refine List.ext_getElem? fun n => ?_
  rw [getElem?_slice, List.getElem?_append, getElem?_slice, getElem?_overwrite (by omega)]
  by_cases hb : n < b.length
  · rw [if_pos (by omega), if_pos (by omega), if_pos hb, Nat.add_sub_cancel_left]
  · rw [if_neg (by omega : ¬ (i ≤ i + n ∧ i + n < i + b.length)), if_neg hb]
    have hn : i + b.length + (n - b.length) = i + n := by omega
    rw [hn]

theorem slice_overwrite_of_disjoint {b : List α} {lo hi : Nat} (h : i + b.length ≤ l.length)
    (hdisjoint : hi ≤ i ∨ i + b.length ≤ lo) : slice (overwrite l i b) lo hi = slice l lo hi := by
  refine List.ext_getElem? fun n => ?_
  rw [getElem?_slice, getElem?_slice]
  split
  · rw [getElem?_overwrite h, if_neg (by omega)]
  · rfl

theorem modify_append_right (x y : List α) (k : Nat) (f : α → α) :
    (x ++ y).modify (x.length + k) f = x ++ y.modify k f := by
  induction x with
  | nil => rw [List.nil_append, List.length_nil, Nat.zero_add, List.nil_append]
  | cons a x ih =>
    rw [List.length_cons, Nat.succ_add, List.cons_append, List.modify_succ_cons, ih]
    rfl

theorem modify_append_left (x y : List α) {k : Nat} (f : α → α) (h : k < x.length) :
    (x ++ y).modify k f = x.modify k f ++ y := by
  induction x generalizing k with
  | nil => cases h
  | cons a x ih =>
    cases k with
    | zero => rfl
    | succ k =>
      rw [List.cons_append, List.modify_succ_cons, List.modify_succ_cons,
        ih (Nat.lt_of_succ_lt_succ h), List.cons_append]

end Slice
