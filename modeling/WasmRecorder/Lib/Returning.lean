import Mathlib

/-!
# Computations that come back

A fallible computation meets a postcondition when it has a value and the value satisfies it;
that it does not fail is part of the statement.

* `Returns x Q` — `x` ends with a value that satisfies `Q`.
* `Returns.bind`, `Returns.ite`, `Returns.foldlM`, `Returns.foldlM_record`, `Returns.foldlM_range` —
  the rules for a sequence, a branch, a loop over a list, one that keeps a record, and a loop that
  counts.
-/

namespace Returning

variable {ε α β S : Type} {x y : Except ε α} {Q : α → Prop}

/-- The computation has a value, which satisfies `Q`. -/
def Returns (x : Except ε α) (Q : α → Prop) : Prop := ∃ a, x = .ok a ∧ Q a

theorem returns_ok {a : α} (h : Q a) : Returns (.ok a : Except ε α) Q := ⟨a, rfl, h⟩

theorem returns_pure {a : α} (h : Q a) : Returns (pure a : Except ε α) Q := ⟨a, rfl, h⟩

theorem Returns.mono {Q' : α → Prop} (h : Returns x Q) (hQ : ∀ a, Q a → Q' a) :
    Returns x Q' := by
  obtain ⟨a, ha, hq⟩ := h
  exact ⟨a, ha, hQ a hq⟩

theorem Returns.bind {f : α → Except ε β} {R : β → Prop} (h : Returns x Q)
    (hf : ∀ a, Q a → Returns (f a) R) : Returns (x >>= f) R := by
  obtain ⟨a, rfl, hq⟩ := h
  exact hf a hq

theorem Returns.ite {P : Prop} [Decidable P] (hx : P → Returns x Q) (hy : ¬ P → Returns y Q) :
    Returns (if P then x else y) Q := by
  split
  · next h => exact hx h
  · next h => exact hy h

/-- An invariant of a loop over a list. -/
theorem Returns.foldlM {f : S → α → Except ε S} {I : S → Prop} {l : List α} {s : S} (hs : I s)
    (hstep : ∀ s, ∀ a ∈ l, I s → Returns (f s a) I) : Returns (l.foldlM f s) I := by
  induction l generalizing s with
  | nil => exact returns_pure hs
  | cons a l ih =>
    rw [List.foldlM_cons]
    refine (hstep s a List.mem_cons_self hs).bind fun s' hs' => ih hs' ?_
    exact fun s b hb => hstep s b (List.mem_cons_of_mem a hb)

/-- A loop whose rounds each add something to a record. -/
theorem Returns.foldlM_record {γ : Type} {f : S → α → Except ε S} {log : S → List γ}
    {g : α → List γ} {l : List α} {s : S}
    (hstep : ∀ s, ∀ a ∈ l, Returns (f s a) fun s' => log s' = log s ++ g a) :
    Returns (l.foldlM f s) fun s' => log s' = log s ++ l.flatMap g := by
  induction l generalizing s with
  | nil => exact returns_pure (List.append_nil _).symm
  | cons a l ih =>
    rw [List.foldlM_cons]
    refine (hstep s a List.mem_cons_self).bind fun s' hs' => ?_
    rw [List.flatMap_cons, ← List.append_assoc, ← hs']
    exact ih fun s b hb => hstep s b (List.mem_cons_of_mem a hb)

/-- An invariant of a loop that counts to `n`. -/
theorem Returns.foldlM_range {f : S → Nat → Except ε S} (I : Nat → S → Prop) {n : Nat} {s : S}
    (hs : I 0 s) (hstep : ∀ i s, i < n → I i s → Returns (f s i) (I (i + 1))) :
    Returns ((List.range n).foldlM f s) (I n) := by
  induction n with
  | zero => exact returns_pure hs
  | succ n ih =>
    rw [List.range_succ, List.foldlM_append]
    refine (ih fun i s hi => hstep i s (Nat.lt_succ_of_lt hi)).bind fun s' hs' => ?_
    rw [List.foldlM_cons]
    exact (hstep n s' n.lt_succ_self hs').bind fun s'' hs'' => returns_pure hs''

end Returning
