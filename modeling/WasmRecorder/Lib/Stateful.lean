import Mathlib

/-!
# Steps that change a state and may fail

A step is a computation in `EStateM`: when it fails, what it has done to the state by then stays
done.

* `Succeeds` — a step that never fails, with what it returns, and its rules.
* `Erases` — a step whose state is only a record of what it does: without the record it is a plain
  fallible computation.
-/

namespace Stateful

variable {ε σ α β : Type}

theorem bind_eq_ok {x : EStateM ε σ α} {f : α → EStateM ε σ β} {s s' : σ} {b : β} :
    (x >>= f) s = .ok b s' ↔ ∃ a s₁, x s = .ok a s₁ ∧ f a s₁ = .ok b s' := by
  change EStateM.bind x f s = _ ↔ _
  rw [EStateM.bind]
  cases x s with
  | ok a s₁ =>
    refine ⟨fun h => ⟨a, s₁, rfl, h⟩, ?_⟩
    rintro ⟨a', s₁', h, h'⟩
    cases h
    exact h'
  | error e s₁ =>
    refine ⟨nofun, ?_⟩
    rintro ⟨a', s₁', h, -⟩
    cases h

/-- The state in the end. -/
def after (x : EStateM ε σ α) (s : σ) : σ :=
  match x s with
  | .ok _ s' => s'
  | .error _ s' => s'

/-- What holds behind the first step however that ends, and is kept by the second where it is
taken. -/
theorem after_bind (P : σ → Prop) {x : EStateM ε σ α} {f : α → EStateM ε σ β} {s : σ}
    (hx : P (after x s)) (hf : ∀ a s₁, x s = .ok a s₁ → P s₁ → P (after (f a) s₁)) :
    P (after (x >>= f) s) := by
  have hbind : after (x >>= f) s = match x s with
      | .ok a s₁ => after (f a) s₁
      | .error _ s₁ => s₁ := by
    change (match EStateM.bind x f s with | .ok _ s' => s' | .error _ s' => s') = _
    rw [EStateM.bind]
    cases x s with
    | ok a s₁ => rfl
    | error e s₁ => rfl
  rw [hbind]
  rw [after] at hx
  cases h : x s with
  | ok a s₁ =>
    rw [h] at hx
    exact hf a s₁ h hx
  | error e s₁ =>
    rw [h] at hx
    exact hx

/-! ### Steps that do not fail -/

/-- Whatever the state, the step ends well, and returns something as `Q` says. -/
def Succeeds (x : EStateM ε σ α) (Q : α → Prop) : Prop := ∀ s, ∃ a s', x s = .ok a s' ∧ Q a

section Succeeds

variable {x y : EStateM ε σ α} {Q Q' : α → Prop}

theorem Succeeds.pure {a : α} (h : Q a) : Succeeds (pure a : EStateM ε σ α) Q :=
  fun s => ⟨a, s, rfl, h⟩

theorem Succeeds.mono (h : Succeeds x Q) (hQ : ∀ a, Q a → Q' a) : Succeeds x Q' := by
  intro s
  obtain ⟨a, s', hx, ha⟩ := h s
  exact ⟨a, s', hx, hQ a ha⟩

theorem Succeeds.bind {f : α → EStateM ε σ β} {R : β → Prop} (h : Succeeds x Q)
    (hf : ∀ a, Q a → Succeeds (f a) R) : Succeeds (x >>= f) R := by
  intro s
  obtain ⟨a, s₁, hx, ha⟩ := h s
  obtain ⟨b, s₂, hb, hR⟩ := hf a ha s₁
  exact ⟨b, s₂, bind_eq_ok.mpr ⟨a, s₁, hx, hb⟩, hR⟩

theorem Succeeds.ite {P : Prop} [Decidable P] (hx : P → Succeeds x Q) (hy : ¬ P → Succeeds y Q) :
    Succeeds (if P then x else y) Q := by
  split
  · next h => exact hx h
  · next h => exact hy h

theorem succeeds_get : Succeeds (get : EStateM ε σ σ) fun _ => True :=
  fun s => ⟨s, s, rfl, trivial⟩

theorem succeeds_modify (f : σ → σ) :
    Succeeds (modify f : EStateM ε σ PUnit) fun _ => True :=
  fun s => ⟨⟨⟩, f s, rfl, trivial⟩

end Succeeds

/-! ### Steps that keep a record -/

/-- How a step ends, without the state. -/
def plain : EStateM.Result ε σ α → Except ε α
  | .ok a _ => .ok a
  | .error e _ => .error e

/-- A plain computation as a step that leaves the state alone. -/
def lift : Except ε α → EStateM ε σ α
  | .ok a => pure a
  | .error e => throw e

theorem after_lift (x : Except ε α) (s : σ) : after (lift x) s = s := by
  cases x with
  | ok a => rfl
  | error e => rfl

theorem lift_eq_ok {x : Except ε α} {s s' : σ} {a : α} :
    (lift x : EStateM ε σ α) s = .ok a s' ↔ x = .ok a ∧ s' = s := by
  cases x with
  | ok b =>
    constructor
    · intro h
      cases h
      exact ⟨rfl, rfl⟩
    · rintro ⟨h, rfl⟩
      cases h
      rfl
  | error e => exact ⟨nofun, fun h => (by cases h.1)⟩

/-- A step that ends like a plain computation, whatever the state. -/
def Erases (x : EStateM ε σ α) (y : Except ε α) : Prop := ∀ s, plain (x s) = y

theorem erases_pure (a : α) : Erases (pure a : EStateM ε σ α) (.ok a) := fun _ => rfl

theorem erases_lift (x : Except ε α) : Erases (lift x : EStateM ε σ α) x := by
  intro s
  cases x with
  | ok a => rfl
  | error e => rfl

theorem Erases.bind {x : EStateM ε σ α} {y : Except ε α} {f : α → EStateM ε σ β}
    {g : α → Except ε β} (hx : Erases x y) (hf : ∀ a, Erases (f a) (g a)) :
    Erases (x >>= f) (y >>= g) := by
  intro s
  change plain (EStateM.bind x f s) = _
  rw [EStateM.bind, ← hx s]
  cases x s with
  | ok a s₁ => exact hf a s₁
  | error e s₁ => rfl

theorem Erases.foldlM {f : β → α → EStateM ε σ β} {g : β → α → Except ε β}
    (h : ∀ b a, Erases (f b a) (g b a)) (l : List α) (b : β) :
    Erases (l.foldlM f b) (l.foldlM g b) := by
  induction l generalizing b with
  | nil => exact erases_pure b
  | cons a l ih =>
    rw [List.foldlM_cons, List.foldlM_cons]
    exact (h b a).bind fun b' => ih b'

end Stateful
