import WasmRecorder.Boundarylog.Seek
import WasmRecorder.Boundarylog.StreamReplaySteps

/-!
# Divergences that a stub has seen

An import stub cannot stop the module, so it stashes the divergence it sees in the replayer and
leaves it to the driver to report it. The stash is never cleared. `callExport` looks at it after
every exported call; but a module can call imports while it is instantiated, from its start
function, and neither driver looks at the stash before the first exported call or at the end. So
a replay that drives no exported call at all may return no error although a stub has seen a
divergence, and that is the only way to lose one.

* `err_reported_iff` — when both drivers report every divergence.
* `err_lost_listener` — a module that calls an import from its start function, against an empty
  recording.
-/

namespace Boundarylog

open Fallible (returnsWith returnsWith_iff)

variable {σ κ : Type} {fuel : Nat} {guest : Guest σ κ} {opts : Options σ} {r : Recording}

/-! ### The batch driver -/

theorem calls_eq_nil_iff {l : Launch σ κ} (h : launch fuel guest opts r = some (.ok l)) :
    (r.topLevelExports.drop l.start).take (l.stop - l.start) = [] ↔ ¬ l.start < l.stop := by
  obtain ⟨-, -, -, -, hrange, -, -⟩ := launch_ok h
  have hle := resolveRange_ok hrange
  rw [← List.length_eq_zero_iff, List.length_take, List.length_drop]
  omega

/-- The batch driver reports every divergence, unless one was seen during instantiation and no
call is driven. -/
theorem replay_err_iff :
    (∀ p, replay fuel guest opts r = some (.ok p) → p.replayer.err = none) ↔
      ∀ l, launch fuel guest opts r = some (.ok l) → l.progress.replayer.err ≠ none →
        l.start < l.stop ∨ (l.start = 0 ∧ l.stop = r.topLevelExports.length ∧
          l.progress.replayer.cursor ≠ r.crossings.length) := by
  constructor
  · intro hall l hl herr
    by_contra hcond
    push Not at hcond
    have hnil := (calls_eq_nil_iff hl).mpr (by omega)
    have hend : ∃ p, endReplay r l.start l.stop l.progress = .ok p ∧
        p.replayer.err = l.progress.replayer.err := by
      rw [endReplay]
      dsimp only
      by_cases hpart : l.stop ≠ r.topLevelExports.length ∨ l.start ≠ 0
      · rw [if_pos hpart]
        exact ⟨_, rfl, rfl⟩
      · rw [if_neg hpart]
        push Not at hpart
        rw [if_neg (not_not_intro (hcond.2 hpart.2 hpart.1))]
        exact ⟨_, rfl, rfl⟩
    obtain ⟨p, hp, hsame⟩ := hend
    have hreplay : replay fuel guest opts r = some (.ok p) := by
      rw [replay, hl]
      dsimp only
      rw [hnil, Driver.driveCalls]
      dsimp only
      rw [hp]
    rw [← hsame] at herr
    exact herr (hall p hreplay)
  · intro hall p hp
    obtain ⟨l, p₁, hl, hdrive, hend⟩ := replay_ok hp
    obtain ⟨rfl, hcursor⟩ := endReplay_ok hend
    by_cases hnil : (r.topLevelExports.drop l.start).take (l.stop - l.start) = []
    · rw [hnil] at hdrive
      cases hdrive
      by_contra herr
      rcases hall l hl herr with hlt | ⟨hstart, hstop, hne⟩
      · exact (calls_eq_nil_iff hl).mp hnil hlt
      · exact hne (hcursor hstop hstart)
    · have herr := Driver.driveCalls_err hnil hdrive
      exact herr

/-! ### The streaming driver -/

theorem Session.driveGroup_err {s s' : Session σ κ} {group : List Crossing}
    (h : s.driveGroup fuel group = some (.ok s')) : s'.progress.replayer.err = none := by
  obtain ⟨r, c, p, -, -, hdrive, rfl⟩ := Session.driveGroup_ok h
  exact (Driver.driveCall_cursor hdrive).2.2

theorem Session.refresh_progress (streamed : Option HostState) (s : Session σ κ) :
    (s.refresh streamed).progress = s.progress := by
  rw [refresh]
  split <;> rfl

theorem streamLoop_err {rounds : Nat} {reader reader' : StreamReader} {s : Session σ κ}
    {stage' : Stage σ κ} {truncation : Option TruncationError} (hs : s.progress.replayer.err = none)
    (h : streamLoop fuel guest opts rounds reader (.prepared s) =
      some (.ok (reader', stage', truncation))) :
    ∃ s', stage' = .prepared s' ∧ s'.progress.replayer.err = none := by
  induction rounds generalizing reader s with
  | zero => cases h
  | succ rounds ih =>
    cases hnext : reader.nextGroup with
    | mk t out =>
      cases out with
      | error e =>
        rw [streamLoop_stop hnext] at h
        cases hend : e.ending with
        | error e' =>
          rw [hend] at h
          cases h
        | ok truncation' =>
          rw [hend] at h
          cases h
          exact ⟨s, rfl, hs⟩
      | ok group =>
        obtain ⟨s₁, s₂, -, hdrive, hrest⟩ := streamLoop_more_ok hnext h
        exact ih (Session.driveGroup_err hdrive) hrest

variable {rounds : Nat} {reader : StreamReader}

/-- What a streaming replay has at the end of a stream that brings no call group: the module,
instantiated. -/
def Idle (rounds fuel : Nat) (guest : Guest σ κ) (opts : Options σ) (r : Recording)
    (reader : StreamReader) (s : Session σ κ) (truncation : Option TruncationError) : Prop :=
  0 < rounds ∧ r.crossings = [] ∧ ¬ (opts.fromPoint ≠ 0 ∨ opts.toPoint ≠ 0 ∨ opts.resume.isSome) ∧
    ∃ reader' e stage s₀, reader.nextGroup = (reader', .error e) ∧ e.ending = .ok truncation ∧
      startStream fuel guest opts r reader.asm.hostState = some (.ok stage) ∧
      prepareOnce fuel guest opts reader'.asm.hostState stage = some (.ok s₀) ∧
      s = s₀.refresh reader'.asm.hostState

/-- A divergence is stashed, no call waits to be classified, and no crossing is left. -/
structure Silent (s : Session σ κ) (truncation : Option TruncationError) : Prop where
  stashed : s.progress.replayer.err ≠ none
  classified : ∀ strict, s.progress.replayer.deferredValueless = some strict →
    s.recording.markersIdentifyImports = false ∧ truncation = none
  consumed : truncation = none → s.progress.replayer.cursor = s.recording.crossings.length

theorem streamingReplay_idle {s : Session σ κ} {truncation : Option TruncationError}
    (h : Idle rounds fuel guest opts r reader s truncation) :
    streamingReplay rounds fuel guest opts r reader = some (s.finish truncation) := by
  obtain ⟨hrounds, hr, hopts, reader', e, stage, s₀, hnext, hend, hstart, hprep, rfl⟩ := h
  obtain ⟨n, rfl⟩ := Nat.exists_eq_succ_of_ne_zero hrounds.ne'
  have hloop : streamLoop fuel guest opts (n + 1) reader stage =
      some (.ok (reader', stage, truncation)) := by
    rw [streamLoop_stop hnext, hend]
  rw [streamingReplay, if_neg (not_not_intro hr), if_neg hopts, hstart]
  dsimp only
  rw [driveStream, hloop]
  dsimp only
  rw [hprep]

theorem streamingReplay_ok {out : StreamResult σ}
    (h : streamingReplay rounds fuel guest opts r reader = some (.ok out)) :
    out.progress.replayer.err = none ∨
      ∃ (s : Session σ κ) (truncation : Option TruncationError),
        Idle rounds fuel guest opts r reader s truncation := by
  rw [streamingReplay] at h
  by_cases hr : r.crossings = []
  swap
  · rw [if_pos hr] at h
    cases h
  by_cases hopts : opts.fromPoint ≠ 0 ∨ opts.toPoint ≠ 0 ∨ opts.resume.isSome
  · rw [if_neg (not_not_intro hr), if_pos hopts] at h
    cases h
  rw [if_neg (not_not_intro hr), if_neg hopts] at h
  split at h
  · cases h
  · cases h
  · next stage hstart =>
    rw [driveStream] at h
    split at h
    · cases h
    · cases h
    · next reader' stage' truncation hloop =>
      split at h
      · cases h
      · cases h
      · next s hprep =>
        cases rounds with
        | zero => cases hloop
        | succ n =>
          cases hnext : reader.nextGroup with
          | mk t answer =>
            cases answer with
            | error e =>
              -- the stream brings no call group
              rw [streamLoop_stop hnext] at hloop
              cases hend : e.ending with
              | error e' =>
                rw [hend] at hloop
                cases hloop
              | ok truncation' =>
                rw [hend] at hloop
                cases hloop
                exact .inr ⟨_, truncation, Nat.succ_pos n, hr, hopts, _, e, stage, s, hnext, hend,
                  hstart, hprep, rfl⟩
            | ok group =>
              obtain ⟨s₁, s₂, -, hdrive, hrest⟩ := streamLoop_more_ok hnext hloop
              obtain ⟨s', rfl, herr⟩ := streamLoop_err (Session.driveGroup_err hdrive) hrest
              rw [prepareOnce] at hprep
              cases hprep
              obtain ⟨rfl, -, -⟩ := Session.finish_ok (Option.some.inj h)
              refine .inl ?_
              change (s.refresh _).progress.replayer.err = none
              rw [Session.refresh_progress]
              exact herr

/-- The streaming driver reports every divergence, unless one was seen during instantiation and
the stream brings no call group. -/
theorem streamingReplay_err_iff :
    (∀ out, streamingReplay rounds fuel guest opts r reader = some (.ok out) →
      out.progress.replayer.err = none) ↔
    ∀ s truncation, Idle rounds fuel guest opts r reader s truncation → ¬ Silent s truncation := by
  constructor
  · intro hall s truncation hidle hsilent
    have hfin := Session.finish_eq hsilent.classified hsilent.consumed
    have hrun := streamingReplay_idle hidle
    rw [hfin] at hrun
    exact hsilent.stashed (hall _ hrun)
  · intro hall out hout
    rcases streamingReplay_ok hout with herr | ⟨s, truncation, hidle⟩
    · exact herr
    · rw [streamingReplay_idle hidle] at hout
      obtain ⟨rfl, hclass, hcursor⟩ := Session.finish_ok (Option.some.inj hout)
      by_contra herr
      exact hall s truncation hidle ⟨herr, hclass, hcursor⟩

/-- **When a stashed divergence is reported.** Whatever the module, the recording and the range:
the batch driver never returns without error over a stash exactly if, whenever instantiation has
stashed a divergence, the range holds an exported call or the whole recording holds a crossing
that instantiation did not consume; and the streaming driver never does exactly if it is not the
case that instantiation has stashed a divergence, no call group arrives and the end of the stream
has nothing else to report. -/
theorem err_reported_iff (fuel rounds : Nat) (guest : Guest σ κ) (opts : Options σ) (r : Recording)
    (reader : StreamReader) :
    ((∀ p, replay fuel guest opts r = some (.ok p) → p.replayer.err = none) ↔
      ∀ l, launch fuel guest opts r = some (.ok l) → l.progress.replayer.err ≠ none →
        l.start < l.stop ∨ (l.start = 0 ∧ l.stop = r.topLevelExports.length ∧
          l.progress.replayer.cursor ≠ r.crossings.length)) ∧
    ((∀ out, streamingReplay rounds fuel guest opts r reader = some (.ok out) →
        out.progress.replayer.err = none) ↔
      ∀ s truncation, Idle rounds fuel guest opts r reader s truncation →
        ¬ Silent s truncation) :=
  ⟨replay_err_iff, streamingReplay_err_iff⟩

/-- Two calls that both cross the boundary leave no divergence behind. -/
theorem err_reported_iff_forwarded :
    ∃ p, replay 10 forwarderTwiceScript.guest {} forwardedTwice = some (.ok p) ∧
      p.replayer.err = none := by
  have hrun : returnsWith (fun p => decide (p.calls.length = 2))
      (replay 10 forwarderTwiceScript.guest {} forwardedTwice) = true := by
    decide +kernel
  obtain ⟨p, hp, -⟩ := returnsWith_iff.mp hrun
  have hreported :=
    (err_reported_iff 10 0 forwarderTwiceScript.guest {} forwardedTwice { src := [] }).1
  refine ⟨p, hp, hreported.mpr (fun l hl herr => ?_) p hp⟩
  have hquiet : returnsWith (fun l => decide (l.progress.replayer.err = none))
      (launch 10 forwarderTwiceScript.guest {} forwardedTwice) = true := by
    decide +kernel
  rw [hl] at hquiet
  exact absurd (of_decide_eq_true hquiet) herr

/-- A module that imports `env.log : i32 → ()`. -/
def listenerCompiled : Compiled where
  importedFunctions := [⟨"env".toList, "log".toList, ⟨[.i32], []⟩⟩]
  exportedFunctions := []
  imports_lt := by decide

/-- Its start function logs 7. -/
def listener : Script listenerCompiled where
  startup := [⟨⟨0, [7], []⟩, ⟨_, rfl, rfl⟩⟩]
  calls := []

/-- Against an empty recording the call of the import is a divergence, and both drivers return
without error. -/
theorem err_lost_listener :
    (∃ p, replay 10 listener.guest {} {} = some (.ok p) ∧
      p.replayer.err = some (.divergence (.importCall 0 0))) ∧
    ∃ out, streamingReplay 10 10 listener.guest {} {} (.ofChunks [Json.encode "[]".toList]) =
        some (.ok out) ∧
      out.progress.replayer.err = some (.divergence (.importCall 0 0)) := by
  have hreplay : returnsWith
      (fun p => decide (p.replayer.err = some (.divergence (.importCall 0 0))))
      (replay 10 listener.guest {} {}) = true := by
    decide +kernel
  have hstream : returnsWith
      (fun out => decide (out.progress.replayer.err = some (.divergence (.importCall 0 0))))
      (streamingReplay 10 10 listener.guest {} {} (.ofChunks [Json.encode "[]".toList])) = true := by
    decide +kernel
  obtain ⟨p, hp, herr⟩ := returnsWith_iff.mp hreplay
  obtain ⟨out, hout, herr'⟩ := returnsWith_iff.mp hstream
  exact ⟨⟨p, hp, of_decide_eq_true herr⟩, out, hout, of_decide_eq_true herr'⟩

end Boundarylog
