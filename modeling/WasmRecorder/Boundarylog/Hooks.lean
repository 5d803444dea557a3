import WasmRecorder.Boundarylog.Seek

/-!
# Hooks with a state

The hook of a replay is shown the instance at every quiescent point. It may hold on to things: the
snapshots it took, the recorder it attached. It never changes the instance, so a replay with a hook
is the replay without it, whose points are then shown to the hook one after the other; what is left
out is only how far a replay got whose hook refused a point.

* `Hook.watch_invariant` — what a hook preserves at every point.
* `replay_iff` — what a driver that returns has done.
* `replay_log` — the points and calls of a replay, by their numbers.
-/

namespace Boundarylog

variable {σ κ β : Type}

/-- A hook with a state of its own. -/
abbrev Hook (β σ : Type) := Nat → State σ → β → Except Text β

/-- Run several hooks as one, in order. -/
def chainHooks (hooks : List (Hook β σ)) : Hook β σ := fun point st b =>
  hooks.foldlM (fun b h => h point st b) b

/-- The states of a hook after each of the points it is shown. -/
def Hook.watch (h : Hook β σ) : β → List (Nat × State σ) → Except ReplayError (List β)
  | _, [] => .ok []
  | b, (point, st) :: rest =>
    match h point st b with
    | .error e => .error (.hook point e)
    | .ok b' => (Hook.watch h b' rest).map (b' :: ·)

theorem Hook.watch_cons_ok {h : Hook β σ} {b : β} {point : Nat} {st : State σ}
    {rest : List (Nat × State σ)} {trail : List β}
    (hw : h.watch b ((point, st) :: rest) = .ok trail) :
    ∃ b' trail', h point st b = .ok b' ∧ h.watch b' rest = .ok trail' ∧ trail = b' :: trail' := by
  rw [Hook.watch] at hw
  split at hw
  · cases hw
  · next b' hb =>
    cases hrest : Hook.watch h b' rest with
    | error e =>
      rw [hrest] at hw
      cases hw
    | ok trail' =>
      rw [hrest] at hw
      cases hw
      exact ⟨b', trail', hb, hrest, rfl⟩

theorem Hook.watch_length {h : Hook β σ} {b : β} {points : List (Nat × State σ)} {trail : List β}
    (hw : h.watch b points = .ok trail) : trail.length = points.length := by
  induction points generalizing b trail with
  | nil =>
    cases hw
    rfl
  | cons x rest ih =>
    obtain ⟨b', trail', -, hrest, rfl⟩ := Hook.watch_cons_ok hw
    rw [List.length_cons, List.length_cons, ih hrest]

theorem Hook.watch_invariant {h : Hook β σ} {I : β → Prop}
    (hstep : ∀ point st b b', I b → h point st b = .ok b' → I b') {b : β}
    {points : List (Nat × State σ)} {trail : List β} (hb : I b)
    (hw : h.watch b points = .ok trail) : ∀ b' ∈ trail, I b' := by
  induction points generalizing b trail with
  | nil =>
    cases hw
    exact fun _ hmem => absurd hmem List.not_mem_nil
  | cons x rest ih =>
    obtain ⟨b', trail', hpoint, hrest, rfl⟩ := Hook.watch_cons_ok hw
    have hb' := hstep _ _ _ _ hb hpoint
    exact List.forall_mem_cons.mpr ⟨hb', ih hb' hrest⟩

/-! ### The hook of the driver -/

section Hooked

variable {d : Driver σ κ} {r : Recording} {fuel : Nat} {hook : Nat → State σ → Except Text Unit}

theorem replay_iff {guest : Guest σ κ} {opts : Options σ} {p : Progress σ} :
    replay fuel guest opts r = some (.ok p) ↔
      ∃ (d : Driver σ κ) (start stop : Nat) (p₀ p₁ p₂ : Progress σ),
        precheck guest opts r = .ok d ∧ d.prepare fuel r = some (.ok p₀) ∧
        resolveRange opts r.topLevelExports.length = .ok (start, stop) ∧
        seek opts r start p₀ = .ok p₁ ∧
        (∀ hook, d.hook = some hook → hook start p₁.state = .ok ()) ∧
        d.driveCalls fuel r start { p₁ with points := [(start, p₁.state)] }
          ((r.topLevelExports.drop start).take (stop - start)) = some (.ok p₂) ∧
        endReplay r start stop p₂ = .ok p := by
  have hfresh : ∀ {d : Driver σ κ} {start : Nat} {p₀ p₁ : Progress σ},
      d.prepare fuel r = some (.ok p₀) → seek opts r start p₀ = .ok p₁ → p₁.points = [] := by
    intro d start p₀ p₁ hprep hseek
    obtain ⟨-, w, s, tr, res, st, w', -, -, -, rfl⟩ := Driver.prepare_ok hprep
    rcases seek_ok hseek with ⟨-, rfl⟩ | ⟨-, resume, st, -, -, rfl⟩ <;> rfl
  constructor
  · intro h
    obtain ⟨⟨d, start, stop, q⟩, p₂, hlaunch, hdrive, hend⟩ := replay_ok h
    obtain ⟨p₀, p₁, hpre, hprep, hrange, hseek, hpass⟩ := launch_ok hlaunch
    obtain ⟨hq, hok⟩ := Driver.passPoint_ok hpass
    dsimp only at hpre hprep hrange hseek hdrive hend hq hok
    rw [hq, hfresh hprep hseek] at hdrive
    exact ⟨d, start, stop, p₀, p₁, p₂, hpre, hprep, hrange, hseek, hok, hdrive, hend⟩
  · rintro ⟨d, start, stop, p₀, p₁, p₂, hpre, hprep, hrange, hseek, hok, hdrive, hend⟩
    have hpass := Driver.passPoint_of_hook hok
    rw [hfresh hprep hseek] at hpass
    rw [replay, launch_eq hpre hprep hrange hseek hpass]
    dsimp only
    rw [List.nil_append, hdrive]
    dsimp only
    rw [hend]

end Hooked

/-! ### The log of a replay -/

theorem replay_log {guest : Guest σ κ} {opts : Options σ} {r : Recording} {fuel : Nat}
    {p : Progress σ} (h : replay fuel guest opts r = some (.ok p)) :
    ∃ start stop, resolveRange opts r.topLevelExports.length = .ok (start, stop) ∧
      p.points.map Prod.fst = List.range' start (stop - start + 1) ∧
      p.calls.map CallLog.crossing = (r.topLevelExports.drop start).take (stop - start) := by
  obtain ⟨d, start, stop, p₀, p₁, p₂, -, hprep, hrange, hseek, -, hdrive, hend⟩ :=
    replay_iff.mp h
  obtain ⟨hle, hstop⟩ := resolveRange_ok hrange
  obtain ⟨rfl, -⟩ := endReplay_ok hend
  obtain ⟨logs, passed, hl⟩ := Driver.driveCalls_logged hdrive
  have hcalls : p₁.calls = [] := by
    obtain ⟨-, w, s, tr, res, st, w', -, -, -, rfl⟩ := Driver.prepare_ok hprep
    rcases seek_ok hseek with ⟨-, rfl⟩ | ⟨-, resume, st, -, -, rfl⟩ <;> rfl
  have hlen : ((r.topLevelExports.drop start).take (stop - start)).length = stop - start := by
    rw [List.length_take, List.length_drop]
    omega
  refine ⟨start, stop, hrange, ?_, ?_⟩
  · change p₂.points.map Prod.fst = _
    rw [hl.points, List.map_append, hl.numbers, hlen, List.range'_succ]
    rfl
  · change p₂.calls.map CallLog.crossing = _
    rw [hl.calls, hcalls, List.nil_append, hl.crossings]

end Boundarylog
