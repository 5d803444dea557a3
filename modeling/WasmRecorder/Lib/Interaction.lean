import Mathlib

/-!
# Machines that converse with a handler

A *machine* is a deterministic transition function on configurations. A
configuration either moves on silently, asks its environment a question and
waits for the answer, or halts with a result. A *handler* is the environment: a
state and a function that answers each question and updates that state.

* `drive_sim` — the simulation rule for two handlers. As long as the first is not
  doomed, related handlers give equal answers and stay related; then a run against
  the first that does not end doomed is also a run against the second, with the
  same conversation and the same result.
-/

namespace Interaction

/-- What a configuration does next: a silent move, a question together with what
becomes of the machine under each answer, or a halt with a result. -/
inductive Step (C Q A R : Type) where
  | internal (c : C)
  | request (q : Q) (resume : A → C)
  | halt (r : R)

variable {C C' Q A R R' H H₁ H₂ : Type}

/-- Run the machine `next` from `c` against the handler `serve` in state `h`, for
at most `fuel` steps. -/
def drive (next : C → Step C Q A R) (serve : H → Q → H × A) :
    Nat → H → C → Option (H × List (Q × A) × R)
  | 0, _, _ => none
  | fuel + 1, h, c =>
    match next c with
    | .internal c' => drive next serve fuel h c'
    | .halt r => some (h, [], r)
    | .request q resume =>
      (drive next serve fuel (serve h q).1 (resume (serve h q).2)).map
        fun out => (out.1, (q, (serve h q).2) :: out.2.1, out.2.2)

section Drive

variable {next : C → Step C Q A R} {serve : H → Q → H × A} {fuel : Nat} {h h' : H} {c : C}
  {tr : List (Q × A)} {r : R}

theorem drive_internal {c' : C} (hc : next c = .internal c') :
    drive next serve (fuel + 1) h c = drive next serve fuel h c' := by
  rw [drive, hc]

theorem drive_halt (hc : next c = .halt r) :
    drive next serve (fuel + 1) h c = some (h, [], r) := by
  rw [drive, hc]

theorem drive_request {q : Q} {resume : A → C} (hc : next c = .request q resume) :
    drive next serve (fuel + 1) h c =
      (drive next serve fuel (serve h q).1 (resume (serve h q).2)).map
        fun out => (out.1, (q, (serve h q).2) :: out.2.1, out.2.2) := by
  rw [drive, hc]

/-- Inversion of a returning run that starts with a question: the rest of the run
returns too, and the conversation is the question and its answer followed by the
rest of the conversation. -/
theorem drive_request_some {q : Q} {resume : A → C} (hc : next c = .request q resume)
    (hrun : drive next serve (fuel + 1) h c = some (h', tr, r)) :
    ∃ tr', drive next serve fuel (serve h q).1 (resume (serve h q).2) = some (h', tr', r) ∧
      tr = (q, (serve h q).2) :: tr' := by
  rw [drive_request hc, Option.map_eq_some_iff] at hrun
  obtain ⟨⟨h'', tr', r'⟩, hrest, hout⟩ := hrun
  simp only [Prod.mk.injEq] at hout
  obtain ⟨rfl, rfl, rfl⟩ := hout
  exact ⟨tr', hrest, rfl⟩

/-- **The invariant rule.** `Inv` relates the handler's state to the conversation
so far. If it holds at the start and every answer preserves it, it holds of the
whole conversation. `ask` is what is known of the machine's questions. -/
theorem drive_induct (Inv : H → List (Q × A) → Prop) (ask : Q → Prop)
    (hask : ∀ c q resume, next c = .request q resume → ask q)
    (hstep : ∀ h tr q, ask q → Inv h tr →
      Inv (serve h q).1 (tr ++ [(q, (serve h q).2)])) :
    ∀ {fuel : Nat} {h : H} {c : C} {tr : List (Q × A)} (tr₀ : List (Q × A)),
      Inv h tr₀ → drive next serve fuel h c = some (h', tr, r) → Inv h' (tr₀ ++ tr) := by
  intro fuel
  induction fuel with
  | zero => intro h c tr tr₀ _ hrun; simp [drive] at hrun
  | succ fuel ih =>
    intro h c tr tr₀ hinv hrun
    cases hc : next c with
    | internal c' =>
      rw [drive_internal hc] at hrun
      exact ih tr₀ hinv hrun
    | halt r' =>
      rw [drive_halt hc] at hrun
      simp only [Option.some.injEq, Prod.mk.injEq] at hrun
      obtain ⟨rfl, rfl, -⟩ := hrun
      simpa using hinv
    | request q resume =>
      obtain ⟨tr', hrest, rfl⟩ := drive_request_some hc hrun
      have hnext := ih (tr₀ ++ [(q, (serve h q).2)]) (hstep h tr₀ q (hask c q resume hc) hinv) hrest
      simpa using hnext

theorem drive_preserves (P : H → Prop) (hstep : ∀ h q, P h → P (serve h q).1)
    (hP : P h) (hrun : drive next serve fuel h c = some (h', tr, r)) : P h' := by
  have hrule := drive_induct (fun h _ => P h) (fun _ => True) (fun _ _ _ _ => trivial)
    (fun h _ q _ => hstep h q) [] hP hrun
  exact hrule

theorem drive_silent (hrun : drive next serve fuel h c = some (h', [], r)) : h' = h := by
  have hrule := drive_induct (fun h₁ tr => tr = [] → h₁ = h) (fun _ => True)
    (fun _ _ _ _ => trivial) ?_ [] (fun _ => rfl) hrun
  · exact hrule rfl
  · intro h₁ tr q _ _ hnil
    exact absurd hnil (List.append_ne_nil_of_right_ne_nil _ (List.cons_ne_nil _ _))

end Drive

/-- **The simulation rule.** `Sync` relates the states of two handlers of the same
machine and `Doomed` is a property of the first handler that no answer undoes. If
every question either dooms the first handler or gets the same answer from both
and leaves them related, then a run against the first that does not end doomed is
matched by a run against the second. -/
theorem drive_sim {next : C → Step C Q A R} {serve₁ : H₁ → Q → H₁ × A}
    {serve₂ : H₂ → Q → H₂ × A} (Sync : H₁ → H₂ → Prop) (Doomed : H₁ → Prop) (ask : Q → Prop)
    (hask : ∀ c q resume, next c = .request q resume → ask q)
    (hdoom : ∀ h q, Doomed h → Doomed (serve₁ h q).1)
    (hstep : ∀ h₁ h₂ q, ask q → Sync h₁ h₂ → Doomed (serve₁ h₁ q).1 ∨
      ((serve₁ h₁ q).2 = (serve₂ h₂ q).2 ∧ Sync (serve₁ h₁ q).1 (serve₂ h₂ q).1)) :
    ∀ {fuel : Nat} {h₁ h₁' : H₁} {h₂ : H₂} {c : C} {tr : List (Q × A)} {r : R},
      Sync h₁ h₂ → drive next serve₁ fuel h₁ c = some (h₁', tr, r) → ¬ Doomed h₁' →
        ∃ h₂', drive next serve₂ fuel h₂ c = some (h₂', tr, r) ∧ Sync h₁' h₂' := by
  intro fuel
  induction fuel with
  | zero => intro h₁ h₁' h₂ c tr r _ hrun; simp [drive] at hrun
  | succ fuel ih =>
    intro h₁ h₁' h₂ c tr r hsync hrun hok
    cases hc : next c with
    | internal c' =>
      rw [drive_internal hc] at hrun ⊢
      exact ih hsync hrun hok
    | halt r' =>
      rw [drive_halt hc] at hrun ⊢
      simp only [Option.some.injEq, Prod.mk.injEq] at hrun
      obtain ⟨rfl, rfl, rfl⟩ := hrun
      exact ⟨h₂, rfl, hsync⟩
    | request q resume =>
      obtain ⟨tr', hrest, rfl⟩ := drive_request_some hc hrun
      rcases hstep h₁ h₂ q (hask c q resume hc) hsync with hbad | ⟨hans, hsync'⟩
      · -- a doomed handler ends doomed
        exact absurd (drive_preserves Doomed hdoom hbad hrest) hok
      · obtain ⟨h₂', hrun₂, hend⟩ := ih hsync' hrest hok
        refine ⟨h₂', ?_, hend⟩
        rw [drive_request hc, ← hans, hrun₂]
        rfl

end Interaction
