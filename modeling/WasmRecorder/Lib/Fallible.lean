import Mathlib

/-!
# Fallible steps and their iteration

A fallible machine is a step function into `Except`. `feed` gives it a list of inputs
one after another and stops at the first error.

* `feed_preserves` — the invariant rule: what every successful step preserves, every
  successful run preserves.
* `feed_rel` — its two-state form, for a reflexive and transitive relation between the
  state before and the state after.
-/

namespace Fallible

variable {ε α β S E : Type}

theorem bind_eq_ok {x : Except ε α} {f : α → Except ε β} {b : β} :
    x >>= f = .ok b ↔ ∃ a, x = .ok a ∧ f a = .ok b := by
  cases x with
  | error e => simp [bind, Except.bind]
  | ok a => simp [bind, Except.bind]

theorem ok_bind (a : α) (f : α → Except ε β) : (Except.ok a : Except ε α) >>= f = f a := rfl

theorem map_eq_ok {x : Except ε α} {f : α → β} {b : β} :
    x.map f = .ok b ↔ ∃ a, x = .ok a ∧ f a = b := by
  cases x with
  | error e => simp [Except.map]
  | ok a => simp [Except.map]

theorem ite_error_eq_ok {c : Prop} [Decidable c] {e : ε} {x : Except ε α} {a : α} :
    (if c then .error e else x) = .ok a ↔ ¬ c ∧ x = .ok a := by
  by_cases hc : c <;> simp [hc]

theorem mapM_ok_mono {f g : α → Except ε β} (hfg : ∀ a b, f a = .ok b → g a = .ok b)
    {l : List α} {r : List β} (h : l.mapM f = .ok r) : l.mapM g = .ok r := by
  induction l generalizing r with
  | nil => exact h
  | cons a l ih =>
    rw [List.mapM_cons] at h ⊢
    obtain ⟨b, hb, h⟩ := bind_eq_ok.mp h
    obtain ⟨bs, hbs, h⟩ := bind_eq_ok.mp h
    exact bind_eq_ok.mpr ⟨b, hfg a b hb, bind_eq_ok.mpr ⟨bs, ih hbs, h⟩⟩

/-- Values that are computed under keys are found under them. -/
theorem lookup_of_mapM_eq_ok {κ : Type} [BEq κ] [LawfulBEq κ] {key : α → κ} {f : α → Except ε β}
    {l : List α} {r : List (κ × β)} (h : l.mapM (fun a => (f a).map fun b => (key a, b)) = .ok r) :
    r.map Prod.fst = l.map key ∧
      ((l.map key).Nodup → ∀ a ∈ l, ∃ b, f a = .ok b ∧ r.lookup (key a) = some b) := by
  induction l generalizing r with
  | nil =>
    cases h
    exact ⟨rfl, fun _ _ ha => absurd ha List.not_mem_nil⟩
  | cons a l ih =>
    rw [List.mapM_cons] at h
    obtain ⟨x, hx, h⟩ := bind_eq_ok.mp h
    obtain ⟨r', hr', h⟩ := bind_eq_ok.mp h
    obtain ⟨b, hb, rfl⟩ := map_eq_ok.mp hx
    cases h
    obtain ⟨hkeys, hlookup⟩ := ih hr'
    refine ⟨congrArg (key a :: ·) hkeys, fun hnodup a' ha' => ?_⟩
    obtain ⟨hnot, hnodup'⟩ := List.nodup_cons.mp hnodup
    rcases List.mem_cons.mp ha' with rfl | ha'
    · exact ⟨b, hb, List.lookup_cons_self⟩
    · obtain ⟨b', hb', hlook⟩ := hlookup hnodup' a' ha'
      have hne : key a' ≠ key a := fun heq => hnot (heq ▸ List.mem_map_of_mem ha')
      refine ⟨b', hb', ?_⟩
      rw [List.lookup_cons, beq_false_of_ne hne]
      exact hlook

theorem length_of_mapM_eq_ok {f : α → Except ε β} {l : List α} {r : List β}
    (h : l.mapM f = .ok r) : r.length = l.length := by
  induction l generalizing r with
  | nil =>
    cases h
    rfl
  | cons a l ih =>
    rw [List.mapM_cons] at h
    obtain ⟨b, -, h⟩ := bind_eq_ok.mp h
    obtain ⟨bs, hbs, h⟩ := bind_eq_ok.mp h
    cases h
    rw [List.length_cons, List.length_cons, ih hbs]

/-- Did a run return a result that passes `p`? -/
def returnsWith (p : α → Bool) : Option (Except ε α) → Bool
  | some (.ok a) => p a
  | _ => false

theorem returnsWith_iff {p : α → Bool} {x : Option (Except ε α)} :
    returnsWith p x = true ↔ ∃ a, x = some (.ok a) ∧ p a = true := by
  constructor
  · intro h
    rcases x with _ | _ | a
    · cases h
    · cases h
    · exact ⟨a, rfl, h⟩
  · rintro ⟨a, rfl, h⟩
    exact h

/-- A fold whose steps first look up what they then work on, as a fold over the things looked
up. -/
theorem foldlM_map_of_forall {f : S → α → Except ε S} {k : S → β → Except ε S} {g : α → β}
    {l : List α} (h : ∀ a ∈ l, ∀ s, f s a = k s (g a)) (s : S) :
    l.foldlM f s = (l.map g).foldlM k s := by
  induction l generalizing s with
  | nil => rfl
  | cons a l ih =>
    rw [List.map_cons, List.foldlM_cons, List.foldlM_cons, h a List.mem_cons_self]
    refine congrArg _ (funext fun s' => ?_)
    exact ih (fun b hb => h b (List.mem_cons_of_mem a hb)) s'

theorem foldlM_preserves {f : S → α → Except ε S} (P : S → Prop)
    (hstep : ∀ s a s', P s → f s a = .ok s' → P s') {l : List α} {s s' : S} (hs : P s)
    (h : l.foldlM f s = .ok s') : P s' := by
  induction l generalizing s with
  | nil =>
    cases h
    exact hs
  | cons a l ih =>
    rw [List.foldlM_cons] at h
    obtain ⟨s₁, hs₁, h⟩ := bind_eq_ok.mp h
    exact ih (hstep s a s₁ hs hs₁) h

/-- A loop that ends well has gone through each of its rounds, with its invariant in front of it. -/
theorem foldlM_ok_of_mem {f : S → α → Except ε S} (P : S → Prop)
    (hstep : ∀ s a s', P s → f s a = .ok s' → P s') {l : List α} {s s' : S} {a : α} (hs : P s)
    (h : l.foldlM f s = .ok s') (ha : a ∈ l) : ∃ s₁ s₂, P s₁ ∧ f s₁ a = .ok s₂ := by
  induction l generalizing s with
  | nil => cases ha
  | cons b l ih =>
    rw [List.foldlM_cons] at h
    obtain ⟨s₁, hs₁, h⟩ := bind_eq_ok.mp h
    rcases List.mem_cons.mp ha with rfl | ha
    · exact ⟨s, s₁, hs, hs₁⟩
    · exact ih (hstep s b s₁ hs hs₁) h ha

/-- Give a fallible machine its inputs in order. -/
def feed (step : S → E → Except ε S) : S → List E → Except ε S
  | s, [] => .ok s
  | s, e :: es =>
    match step s e with
    | .error err => .error err
    | .ok s' => feed step s' es

section Feed

variable {step : S → E → Except ε S} {s s' : S} {e : E} {es es' : List E}

@[simp] theorem feed_nil : feed step s [] = .ok s := rfl

theorem feed_singleton : feed step s [e] = step s e := by
  rw [feed]
  cases step s e with
  | error err => rfl
  | ok s₁ => rfl

theorem feed_cons_of_ok (h : step s e = .ok s') : feed step s (e :: es) = feed step s' es := by
  rw [feed, h]

theorem feed_cons_of_error {err : ε} (h : step s e = .error err) :
    feed step s (e :: es) = .error err := by
  rw [feed, h]

theorem feed_cons_ok (h : feed step s (e :: es) = .ok s') :
    ∃ s₁, step s e = .ok s₁ ∧ feed step s₁ es = .ok s' := by
  rw [feed] at h
  split at h
  · cases h
  · next s₁ hs => exact ⟨s₁, hs, h⟩

theorem feed_append : feed step s (es ++ es') =
    match feed step s es with
    | .error err => .error err
    | .ok s₁ => feed step s₁ es' := by
  induction es generalizing s with
  | nil => rfl
  | cons e es ih =>
    rw [List.cons_append]
    cases hs : step s e with
    | error err => rw [feed_cons_of_error hs, feed_cons_of_error hs]
    | ok s₁ => rw [feed_cons_of_ok hs, feed_cons_of_ok hs, ih]

theorem feed_append_of_ok {s₁ : S} (h : feed step s es = .ok s₁) :
    feed step s (es ++ es') = feed step s₁ es' := by
  rw [feed_append, h]

theorem feed_append_of_error {err : ε} (h : feed step s es = .error err) :
    feed step s (es ++ es') = .error err := by
  rw [feed_append, h]

theorem feed_append_ok (h : feed step s (es ++ es') = .ok s') :
    ∃ s₁, feed step s es = .ok s₁ ∧ feed step s₁ es' = .ok s' := by
  rw [feed_append] at h
  split at h
  · cases h
  · next s₁ hs => exact ⟨s₁, hs, h⟩

theorem feed_error_split {err : ε} (h : feed step s es = .error err) :
    ∃ before bad after s₁, es = before ++ bad :: after ∧ feed step s before = .ok s₁ ∧
      step s₁ bad = .error err := by
  induction es generalizing s with
  | nil => cases h
  | cons e es ih =>
    cases hs : step s e with
    | error err' =>
      rw [feed_cons_of_error hs] at h
      cases h
      exact ⟨[], e, es, s, rfl, rfl, hs⟩
    | ok s₁ =>
      rw [feed_cons_of_ok hs] at h
      obtain ⟨before, bad, after, s₂, rfl, hrun, hbad⟩ := ih h
      exact ⟨e :: before, bad, after, s₂, rfl, by rw [feed_cons_of_ok hs, hrun], hbad⟩

/-- **The invariant rule.** -/
theorem feed_preserves (P : S → Prop) (hstep : ∀ s e s', P s → step s e = .ok s' → P s')
    (hP : P s) (h : feed step s es = .ok s') : P s' := by
  induction es generalizing s with
  | nil => cases h; exact hP
  | cons e es ih =>
    obtain ⟨s₁, hs, hrest⟩ := feed_cons_ok h
    exact ih (hstep s e s₁ hP hs) hrest

/-- **The two-state rule**, under an invariant `P`. -/
theorem feed_rel (P : S → Prop) (R : S → S → Prop) (hrefl : ∀ s, R s s)
    (htrans : ∀ s₁ s₂ s₃, R s₁ s₂ → R s₂ s₃ → R s₁ s₃)
    (hstep : ∀ s e s', P s → step s e = .ok s' → P s' ∧ R s s')
    (hP : P s) (h : feed step s es = .ok s') : R s s' := by
  induction es generalizing s with
  | nil => cases h; exact hrefl _
  | cons e es ih =>
    obtain ⟨s₁, hs, hrest⟩ := feed_cons_ok h
    obtain ⟨hP₁, hR⟩ := hstep s e s₁ hP hs
    exact htrans s s₁ s' hR (ih hP₁ hrest)

end Feed

end Fallible
