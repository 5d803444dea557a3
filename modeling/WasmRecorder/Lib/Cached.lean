import Mathlib

/-!
# Computations that keep a cache

A cache is a state that a computation carries along and that does not show in its results.
`Tracks I x y` says that the stateful `x` computes what the stateless `y` does, from every state
that satisfies `I`, and leaves such a state behind.

* `Tracks.pure`, `Tracks.lift`, `Tracks.bind`, `Tracks.mapM` — the relation follows the way a
  computation is put together.
* `Tracks.run` — what it says of a whole run.
-/

namespace Cached

variable {σ ε α β : Type}

/-- The stateful computation computes what the stateless one does. -/
def Tracks (I : σ → Prop) (x : StateT σ (Except ε) α) (y : Except ε α) : Prop :=
  ∀ s, I s → ∃ s', I s' ∧ x.run s = y.map fun a => (a, s')

variable {I : σ → Prop}

theorem Tracks.pure (a : α) : Tracks I (Pure.pure a) (Pure.pure a : Except ε α) :=
  fun s hs => ⟨s, hs, rfl⟩

theorem Tracks.lift (y : Except ε α) : Tracks I (liftM y) y := by
  intro s hs
  refine ⟨s, hs, ?_⟩
  cases y with
  | error e => rfl
  | ok a => rfl

theorem Tracks.bind {x : StateT σ (Except ε) α} {y : Except ε α}
    {f : α → StateT σ (Except ε) β} {g : α → Except ε β} (hx : Tracks I x y)
    (hf : ∀ a, Tracks I (f a) (g a)) : Tracks I (x >>= f) (y >>= g) := by
  intro s hs
  obtain ⟨s₁, hs₁, hrun⟩ := hx s hs
  rw [StateT.run_bind, hrun]
  cases y with
  | error e => exact ⟨s₁, hs₁, rfl⟩
  | ok a => exact hf a s₁ hs₁

theorem Tracks.mapM {f : α → StateT σ (Except ε) β} {g : α → Except ε β}
    (h : ∀ a, Tracks I (f a) (g a)) (l : List α) : Tracks I (l.mapM f) (l.mapM g) := by
  induction l with
  | nil => exact Tracks.pure []
  | cons a l ih =>
    rw [List.mapM_cons, List.mapM_cons]
    exact (h a).bind fun b => ih.bind fun bs => Tracks.pure (b :: bs)

theorem Tracks.run {x : StateT σ (Except ε) α} {y : Except ε α} (h : Tracks I x y) {s : σ}
    (hs : I s) : (x.run s).map Prod.fst = y := by
  obtain ⟨s', -, hrun⟩ := h s hs
  rw [hrun]
  cases y with
  | error e => rfl
  | ok a => rfl

end Cached
