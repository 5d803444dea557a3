import WasmRecorder.Boundarylog.ReplaySoundness

/-!
# Two drivers of one module

Comparing two replays of the same module comes down to comparing the handlers that serve its
imports. `Simulates` is what has to be shown of the handlers, one import call at a time;
from it follows that an exported call the first driver completes is completed by the second,
with the same conversation, the same results and the same state left behind.

* `Simulates` — the obligation on the handlers.
* `Simulates.run`, `Simulates.callExport` — a run of the guest and an exported call.
-/

namespace Boundarylog

open Interaction

variable {σ κ : Type}

namespace Driver

/-- The import handler of one driver tracks the other's. `Sync` relates the two replayers;
`Doomed` marks a first replayer that will not end without an error, whatever comes. -/
structure Simulates (d₁ d₂ : Driver σ κ) (r₁ r₂ : Recording)
    (Sync : Replayer → Replayer → Prop) (Doomed : Replayer → Prop) : Prop where
  guest : d₂.guest = d₁.guest
  cursor : ∀ s t, Sync s t → t.cursor = s.cursor
  err : ∀ s t, Sync s t → ¬ Doomed s → t.err = none
  doomed : ∀ s q, Doomed s → Doomed (d₁.serve r₁ s q).1
  step : ∀ s t q, (∃ x resume, d₁.guest.next x = .request q resume) → Sync s t →
    Doomed (d₁.serve r₁ s q).1 ∨
      ((d₁.serve r₁ s q).2 = (d₂.serve r₂ t q).2 ∧ Sync (d₁.serve r₁ s q).1 (d₂.serve r₂ t q).1)

variable {d d₁ d₂ : Driver σ κ} {r r₁ r₂ : Recording} {Sync : Replayer → Replayer → Prop}
  {Doomed : Replayer → Prop} {fuel : Nat} {c : Crossing}

theorem Simulates.run (h : Simulates d₁ d₂ r₁ r₂ Sync Doomed) {s s' t : Replayer} {x : κ}
    {tr : List (Request × Answer)} {halt : Halt σ} (hsync : Sync s t)
    (hrun : d₁.run fuel r₁ s x = some (s', tr, halt)) (hok : ¬ Doomed s') :
    ∃ t', d₂.run fuel r₂ t x = some (t', tr, halt) ∧ Sync s' t' := by
  obtain ⟨t', hrun₂, hsync'⟩ := drive_sim Sync Doomed _ (fun x q resume hx => ⟨x, resume, hx⟩)
    h.doomed h.step hsync hrun hok
  refine ⟨t', ?_, hsync'⟩
  rw [Driver.run, h.guest]
  exact hrun₂

/-- An exported call that the first driver completes is completed by the second, and the two
logs are the same. -/
theorem Simulates.callExport (h : Simulates d₁ d₂ r₁ r₂ Sync Doomed) {p₁ p₁' p₂ : Progress σ}
    (hstate : p₂.state = p₁.state) (hcursor : p₂.replayer.cursor = p₁.replayer.cursor)
    (hsync : Sync (enterCall p₁.replayer) (enterCall p₂.replayer))
    (hlt : c.seq < r₂.crossings.length) (hcall : d₁.callExport fuel r₁ p₁ c = some (.ok p₁'))
    (hok : ¬ Doomed p₁'.replayer) :
    ∃ log s, Sync p₁'.replayer s ∧ s.err = none ∧
      p₁' = { p₁ with
        replayer := p₁'.replayer, state := p₁'.state, calls := p₁.calls ++ [log] } ∧
      d₂.callExport fuel r₂ p₂ c = some (.ok { p₂ with
        replayer := s, state := p₁'.state, calls := p₂.calls ++ [log] }) := by
  obtain ⟨hcur, -, t, sig, args, s, tr, got, st, ht, hsig, hargs, hrun, herr, hres, rfl⟩ :=
    callExport_ok hcall
  obtain ⟨s₂, hrun₂, hsync'⟩ := h.run hsync hrun hok
  have herr₂ : s₂.err = none := h.err _ _ hsync' hok
  refine ⟨_, s₂, hsync', herr₂, rfl, ?_⟩
  rw [← hstate, ← h.guest] at hrun₂
  rw [callExport_eq (hcursor.trans hcur) hlt (h.guest ▸ ht) hsig hargs hrun₂,
    finishCall.eq_def, herr₂, h.cursor _ _ hsync']
  dsimp only
  rw [hres]

end Driver

end Boundarylog
