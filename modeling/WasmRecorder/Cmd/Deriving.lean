import WasmRecorder.Boundarylog.Leftovers
import WasmRecorder.Cmd.Seeking

/-!
# Deriving snapshots

With `--snapshots` the index of quiescent points is made before the replay, from the recording as
it is then. A recording on disk is complete; one that is still being produced has no crossings yet,
so its index consists of point zero alone, whatever the stream goes on to carry.

* `finished_points` — the index of a run is the one that was made before it.
* `streamed_snapshots_iff` — when a stream derives the snapshots that its recording on disk
  derives.
-/

namespace Cmd

open Boundarylog (State Recording Options Hook chainHooks Guest Driver Progress Crossing Manifest
  StreamReader StreamResult loadRecording loadRecordingMetadata planImports reconcileHostState replay
  streamingReplay startState arrivalsOf forwarderTwiceScript forwardedTwice forwardedChunks)
open Wasmsnapshot (QuiescentPoint Snapshot Builder IndexRecord capture newBuilder newTiers)
open Fallible (returnsWith returnsWith_iff)

variable {σ κ : Type}

/-! ### Plans -/

/-- The plan of a run that derives snapshots, for a builder with an index of `count` points. -/
def derivingPlan (o : SnapshotOptions) (env : Env σ) (opts : Options σ)
    (recorder : Option RecorderId) (b : Builder) (count : Nat) : Plan σ :=
  ⟨opts, [deriveHook env (if o.every < 1 then 1 else o.every) count],
    { recorder, builder := some b }, false⟩

variable {o : SnapshotOptions} {env : Env σ} {recorder : Option RecorderId}

theorem configure_deriving {r : Recording} {opts : Options σ} {plan : Plan σ}
    (hderive : o.derive = true) (hseek : o.seeking = false) (hslice : o.slicing = false)
    (h : o.configure env r opts recorder = .ok plan) :
    ∃ points b, quiescentPoints r = .ok points ∧
      newBuilder points (newTiers o.useSystemCache env.host) ⟨false, o.promote⟩ = .ok b ∧
      plan = derivingPlan o env opts recorder b points.length := by
  rw [SnapshotOptions.configure] at h
  split at h
  · cases h
  rw [if_neg (by rw [hslice]; exact Bool.false_ne_true)] at h
  split at h
  · cases h
  next points hpoints =>
  rw [SnapshotOptions.seekPlan, if_pos (by rw [hseek]; exact Bool.false_ne_true),
    SnapshotOptions.derivePlan, if_neg (not_not_intro hderive)] at h
  dsimp only at h
  cases hb : newBuilder points (newTiers o.useSystemCache env.host) ⟨false, o.promote⟩ with
  | error e =>
    rw [hb] at h
    cases h
  | ok b =>
    rw [hb] at h
    cases h
    exact ⟨points, b, hpoints, hb, rfl⟩

theorem configure_congr {r r' : Recording} (h : quiescentPoints r = quiescentPoints r')
    (opts : Options σ) (recorder : Option RecorderId) :
    o.configure env r opts recorder = o.configure env r' opts recorder := by
  rw [SnapshotOptions.configure, SnapshotOptions.configure, h]

theorem length_pointsFrom (i : Nat) (cs : List Crossing) :
    (pointsFrom i cs).length = cs.length + 1 := by
  induction cs generalizing i with
  | nil => rfl
  | cons c cs ih => rw [pointsFrom, List.length_cons, ih, List.length_cons]

theorem quiescentPoints_ok {r : Recording} {points : List QuiescentPoint}
    (h : quiescentPoints r = .ok points) :
    r.nestedExports = [] ∧ points = pointsFrom 0 r.topLevelExports := by
  rw [quiescentPoints] at h
  split_ifs at h with hnested
  exact ⟨not_not.mp hnested, (Except.ok.inj h).symm⟩

/-! ### The index of a builder -/

theorem newBuilder_points {points : List QuiescentPoint} {tiers : Wasmsnapshot.Tiers}
    {opts : Wasmsnapshot.EncodeOptions} {b : Builder} (h : newBuilder points tiers opts = .ok b) :
    b.points = points := by
  have hfold : ∀ {b₀ b : Builder}, points.foldlM Builder.addPoint b₀ = .ok b →
      b.points = b₀.points ++ points := by
    clear h
    induction points with
    | nil =>
      intro b₀ b h
      cases h
      exact (List.append_nil _).symm
    | cons p points ih =>
      intro b₀ b h
      obtain ⟨b₁, h₁, h₂⟩ := Fallible.bind_eq_ok.mp h
      obtain ⟨rfl, -⟩ := Wasmsnapshot.addPoint_ok h₁
      rw [ih h₂, Builder.push, List.append_assoc]
      rfl
  exact hfold h

theorem deriveHook_points {every : Int} {count point : Nat} {st : State σ} {w w' : Watch}
    (h : deriveHook env every count point st w = .ok w') :
    w'.builder.map Builder.points = w.builder.map Builder.points := by
  rw [deriveHook] at h
  split_ifs at h
  · cases h
    rfl
  split at h
  · cases h
    rfl
  next b hb =>
  split at h
  · cases h
  dsimp only at h
  split at h
  · cases h
  next b' hadd =>
  cases h
  obtain ⟨i, r, regions, inline, tiers, -, -, -, rfl⟩ := Wasmsnapshot.add_ok hadd
  rw [hb]
  rfl

theorem finish_keeps {plan : Plan σ} {w w' : Watch} (hplan : plan.slicing = false)
    (h : plan.finish env w = .ok w') :
    w'.builder.map Builder.points = w.builder.map Builder.points ∧ w'.taken = w.taken := by
  rw [Plan.finish, if_neg (by rw [hplan]; exact Bool.false_ne_true)] at h
  split at h
  · cases h
    exact ⟨rfl, rfl⟩
  next b hb =>
  split_ifs at h
  split at h
  · cases h
  next b' hbase =>
  cases h
  obtain ⟨i, r, -, -, rfl⟩ := Wasmsnapshot.markBase_ok hbase
  rw [hb]
  exact ⟨rfl, rfl⟩

/-- **The index is the one made before the run.** -/
theorem finished_points {opts : Options σ} {b : Builder} {count : Nat}
    {points : List (Nat × State σ)} {x : Run σ} {w : Watch}
    (hwatch : (chainHooks (derivingPlan o env opts recorder b count).hooks).watch
      (derivingPlan o env opts recorder b count).start points = .ok x.trail)
    (hfinish : (derivingPlan o env opts recorder b count).finish env
      (x.last (derivingPlan o env opts recorder b count).start) = .ok w) :
    w.builder.map Builder.points = some b.points := by
  rw [(finish_keeps rfl hfinish).1]
  have hall := Hook.watch_invariant (I := fun w => w.builder.map Builder.points = some b.points)
    (fun point st w w' hw hw' => by
      obtain ⟨w₁, h₁, h₂⟩ := Fallible.bind_eq_ok.mp hw'
      cases h₂
      exact (deriveHook_points h₁).trans hw) rfl hwatch
  rw [Run.last]
  cases hlast : x.trail.getLast? with
  | none =>
    rw [List.getLastD_eq_getLast?, hlast]
    rfl
  | some w' =>
    rw [List.getLastD_eq_getLast?, hlast]
    exact hall w' (List.mem_of_getLast? hlast)

/-! ### Runs that end where they begin -/

theorem watch_zero {opts : Options σ} {b : Builder} {count : Nat} {st : State σ}
    {trail : List Watch}
    (h : (chainHooks (derivingPlan o env opts recorder b count).hooks).watch
      (derivingPlan o env opts recorder b count).start [(0, st)] = .ok trail) :
    ∃ snap w, capture (env.instanceOf st) 0 = .ok snap ∧ trail = [w] ∧ w.taken = [snap] := by
  obtain ⟨w, trail', hpoint, hrest, rfl⟩ := Hook.watch_cons_ok h
  cases hrest
  obtain ⟨w', hw, hw'⟩ := Fallible.bind_eq_ok.mp hpoint
  cases hw'
  change deriveHook env (if o.every < 1 then 1 else o.every) count 0 st
    { recorder, builder := some b } = .ok w at hw
  rw [deriveHook, if_neg (by simp)] at hw
  dsimp only at hw
  split at hw
  · cases hw
  next snap hsnap =>
  split at hw
  · cases hw
  next b' hadd =>
  cases hw
  exact ⟨snap, _, hsnap, rfl, rfl⟩

theorem watch_zero_congr {opts : Options σ} {b : Builder} {count : Nat} {st st' : State σ}
    (h : capture (env.instanceOf st) 0 = capture (env.instanceOf st') 0) :
    (chainHooks (derivingPlan o env opts recorder b count).hooks).watch
        (derivingPlan o env opts recorder b count).start [(0, st)] =
      (chainHooks (derivingPlan o env opts recorder b count).hooks).watch
        (derivingPlan o env opts recorder b count).start [(0, st')] := by
  have hhook : ∀ every w, deriveHook env every count 0 st w = deriveHook env every count 0 st' w := by
    intro every w
    rw [deriveHook, deriveHook]
    simp only [Nat.cast_zero, h]
  rw [Hook.watch, Hook.watch, derivingPlan]
  dsimp only [chainHooks]
  rw [List.foldlM_cons, List.foldlM_cons, hhook]
  simp only [List.foldlM_nil]

/-! ### The two commands -/

theorem doBoundaryLog_ok {fuel : Nat} {guest : Guest σ κ} {manifest : Option Manifest}
    {files : Boundarylog.RecordingFiles} {r : Recording} {x : Run σ} {w : Watch}
    (hload : loadRecording files = .ok r)
    (h : doBoundaryLog env o fuel guest manifest recorder files = some (.ok (x, w))) :
    ∃ plan, o.configure env r { manifest } recorder = .ok plan ∧
      plan.replay fuel guest r = some (.ok x) ∧ plan.finish env (x.last plan.start) = .ok w := by
  rw [doBoundaryLog, hload] at h
  dsimp only at h
  split at h
  · cases h
  next plan hplan =>
  split at h
  · cases h
  · cases h
  next x' hx =>
  obtain ⟨w', hw, heq⟩ := Fallible.map_eq_ok.mp (Option.some.inj h)
  cases heq
  exact ⟨plan, hplan, hx, hw⟩

theorem doBoundaryStream_iff {rounds fuel : Nat} {guest : Guest σ κ} {manifest : Option Manifest}
    {files : Boundarylog.RecordingFiles} {reader : StreamReader} {r : Recording} {x : Run σ}
    {w : Watch} (hseek : o.seeking = false) (hmeta : loadRecordingMetadata files = .ok r) :
    doBoundaryStream env o rounds fuel guest manifest recorder files reader =
        some (.ok (x, w)) ↔
      ∃ plan out, o.configure env r { manifest } recorder = .ok plan ∧
        streamingReplay rounds fuel guest plan.opts r reader = some (.ok out) ∧
        x.progress = out.progress ∧
        (chainHooks plan.hooks).watch plan.start out.progress.points = .ok x.trail ∧
        plan.finish env (x.last plan.start) = .ok w := by
  rw [doBoundaryStream, hmeta]
  dsimp only
  rw [if_neg (by rw [hseek]; exact Bool.false_ne_true)]
  constructor
  · intro h
    split at h
    · cases h
    next plan hplan =>
    rw [Plan.streamingReplay] at h
    cases hrun : streamingReplay rounds fuel guest plan.opts r reader with
    | none =>
      rw [hrun] at h
      cases h
    | some res =>
      cases res with
      | error e =>
        rw [hrun] at h
        cases h
      | ok out =>
        rw [hrun] at h
        cases hw : (chainHooks plan.hooks).watch plan.start out.progress.points with
        | error e =>
          simp only [hw] at h
          cases h
        | ok trail =>
          simp only [hw] at h
          obtain ⟨w', hfin, heq⟩ := Fallible.map_eq_ok.mp (Option.some.inj h)
          cases heq
          exact ⟨plan, out, hplan, hrun, rfl, hw, hfin⟩
  · rintro ⟨plan, out, hplan, hrun, hprog, hw, hfin⟩
    obtain ⟨progress, trail⟩ := x
    obtain rfl : progress = out.progress := hprog
    rw [hplan]
    dsimp only
    rw [Plan.streamingReplay, hrun]
    dsimp only
    rw [hw]
    dsimp only
    rw [hfin]
    rfl

/-! ### Runs without calls -/

/-- What is captured of the instance that a driver makes of the module before it drives a call. The
host modules are instantiated with the host state of the recording, as far as the driver has it by
then. -/
def freshCapture (env : Env σ) (fuel : Nat) (guest : Guest σ κ) (manifest : Option Manifest)
    (deferred : Bool) (r : Recording) : Option (Except Wasmsnapshot.CaptureError Snapshot) :=
  match planImports guest.compiled manifest with
  | .error _ => none
  | .ok plans =>
    match (Driver.mk guest plans deferred manifest none).prepare fuel r with
    | some (.ok p) => some (capture (env.instanceOf p.state) 0)
    | _ => none

theorem freshCapture_eq {fuel : Nat} {guest : Guest σ κ} {manifest : Option Manifest}
    {deferred : Bool} {r : Recording} {plans : List Boundarylog.ImportPlan} {p : Progress σ}
    (hplans : planImports guest.compiled manifest = .ok plans)
    (hprep : (Driver.mk guest plans deferred manifest none).prepare fuel r = some (.ok p)) :
    freshCapture env fuel guest manifest deferred r =
      some (capture (env.instanceOf p.state) 0) := by
  rw [freshCapture, hplans]
  dsimp only
  rw [hprep]

theorem replay_points (env : Env σ) {fuel : Nat} {guest : Guest σ κ} {manifest : Option Manifest}
    {r : Recording} {p : Progress σ} (hrun : replay fuel guest { manifest } r = some (.ok p))
    (hcalls : r.topLevelExports = []) :
    ∃ st, p.points = [(0, st)] ∧
      freshCapture env fuel guest manifest false r = some (capture (env.instanceOf st) 0) := by
  obtain ⟨d, start, stop, p₀, p₁, p₂, hpre, hprep, hrange, hseek, -, hdrive, hend⟩ :=
    Boundarylog.replay_iff.mp hrun
  rw [hcalls, Boundarylog.resolveRange_whole rfl rfl] at hrange
  cases hrange
  obtain ⟨-, rfl⟩ | ⟨hne, -⟩ := Boundarylog.seek_ok hseek
  swap
  · exact absurd rfl hne
  rw [hcalls] at hdrive
  cases hdrive
  obtain ⟨rfl, -⟩ := Boundarylog.endReplay_ok hend
  obtain ⟨hguest, hmanifest, hdeferred, hhook, hplans, -⟩ := Boundarylog.precheck_ok hpre
  obtain ⟨guest', plans, deferred, manifest', hook⟩ := d
  dsimp only at hguest hmanifest hdeferred hhook
  subst hguest hmanifest hdeferred hhook
  exact ⟨_, rfl, freshCapture_eq hplans hprep⟩

section Streams

variable {guest : Guest σ κ} {opts : Options σ} {manifest : Option Manifest} {rounds fuel : Nat}
  {r r₀ : Recording} {chunks : List (List UInt8)} {out : StreamResult σ}

theorem streamingReplay_unique {rounds' : Nat} {out' : StreamResult σ}
    (hne : ∀ chunk ∈ chunks, chunk ≠ [])
    (h : streamingReplay rounds fuel guest opts r (.ofChunks chunks) = some (.ok out))
    (h' : streamingReplay rounds' fuel guest opts r (.ofChunks chunks) = some (.ok out')) :
    out' = out := by
  obtain ⟨t, harr, -⟩ := Boundarylog.arrives_ofChunks hne
  obtain ⟨-, -, s₀, s, tr, hprep, hdrive, hend, hfin⟩ :=
    (Boundarylog.streamingReplay_iff harr).mp ⟨rounds, h⟩
  obtain ⟨-, -, s₀', s', tr', hprep', hdrive', hend', hfin'⟩ :=
    (Boundarylog.streamingReplay_iff harr).mp ⟨rounds', h'⟩
  cases hprep.symm.trans hprep'
  cases hdrive.symm.trans hdrive'
  cases hend.symm.trans hend'
  exact Except.ok.inj (hfin'.symm.trans hfin)

theorem stream_points (env : Env σ) {sidecar : Option (List UInt8)}
    (hne : ∀ chunk ∈ chunks, chunk ≠ [])
    (hload : loadRecording ⟨chunks.flatten, sidecar⟩ = .ok r)
    (hrun : streamingReplay rounds fuel guest { manifest } r₀ (.ofChunks chunks) =
      some (.ok out))
    (htr : out.truncation = none) (hcalls : r.topLevelExports = []) :
    ∃ st state, out.progress.points = [(0, st)] ∧
      reconcileHostState r₀.hostState
        (startState guest.compiled r₀.hostState (arrivalsOf chunks)) = .ok state ∧
      freshCapture env fuel guest manifest true { r₀ with hostState := state } =
        some (capture (env.instanceOf st) 0) := by
  obtain ⟨-, -, -, hcs, hgroups, hending, -⟩ := Boundarylog.stream_chain hne hrun
  have hstop : (arrivalsOf chunks).stop = .eof := by
    rw [htr, Boundarylog.NextError.ending.eq_def] at hending
    split at hending <;> cases hending
    assumption
  obtain ⟨side, events, streamed, hside, hevents, -⟩ := Boundarylog.loadRecording_ok hload
  obtain ⟨b, hfile⟩ := Boundarylog.complete_stream hevents hstop
  obtain ⟨h, -, hr⟩ := (hfile hside r).mp hload
  -- the stream carries the crossings of the recording, so it carries no group
  have htop : out.recording.topLevelExports = [] := by
    rw [Recording.topLevelExports, hcs]
    rw [← hr] at hcalls
    exact hcalls
  rw [htop] at hgroups
  have hnil : (arrivalsOf chunks).groups = [] := by
    cases hg : (arrivalsOf chunks).groups with
    | nil => rfl
    | cons x l =>
      rw [hg] at hgroups
      cases hgroups
  obtain ⟨t, harr, ht⟩ := Boundarylog.arrives_ofChunks hne
  obtain ⟨-, -, s₀, s, tr, hprep, hdrive, -, hfin⟩ :=
    (Boundarylog.streamingReplay_iff harr).mp ⟨rounds, hrun⟩
  rw [Boundarylog.streamedAtStart_ofChunks ht] at hprep
  rw [hnil] at hdrive
  cases hdrive
  obtain ⟨state, plans, p₀, p, hstate, hplans, hp₀, hpass, hs₀⟩ := Boundarylog.prepareOnce_ok hprep
  obtain ⟨hp, -⟩ := Driver.passPoint_ok hpass
  obtain ⟨rfl, -⟩ := Boundarylog.Session.finish_ok hfin
  have hrefresh := (Boundarylog.Session.refresh_rest t.asm.hostState s₀).2.1
  refine ⟨p₀.state, state, ?_, hstate, freshCapture_eq hplans hp₀⟩
  change (s₀.refresh t.asm.hostState).progress.points = _
  rw [hrefresh, hs₀]
  change p.points = _
  obtain ⟨-, w, s, tr', res, st, w', -, -, -, rfl⟩ := Driver.prepare_ok hp₀
  rw [hp]
  rfl

end Streams

/-! ### Agreement -/

/-- The same quiescent points, the same bases and the same snapshots. -/
structure SameDerived (w w' : Watch) : Prop where
  points : w'.builder.map Builder.points = w.builder.map Builder.points
  bases : w'.builder.map (fun b => b.records.map IndexRecord.isBase) =
    w.builder.map fun b => b.records.map IndexRecord.isBase
  taken : w'.taken = w.taken

/-- The two drivers make instances that are captured alike: one with the host state of the recording,
the other with what the stream has brought of it when it instantiates the module. -/
def StartAlike (env : Env σ) (fuel : Nat) (guest : Guest σ κ) (manifest : Option Manifest)
    (chunks : List (List UInt8)) (r r₀ : Recording) : Prop :=
  ∃ state, reconcileHostState r₀.hostState
      (startState guest.compiled r₀.hostState (arrivalsOf chunks)) = .ok state ∧
    freshCapture env fuel guest manifest false r =
      freshCapture env fuel guest manifest true { r₀ with hostState := state }

section Agreement

variable {env : Env σ} {o : SnapshotOptions} {fuel : Nat} {guest : Guest σ κ}
  {manifest : Option Manifest} {recorder : Option RecorderId} {sidecar : Option (List UInt8)}
  {chunks : List (List UInt8)} {r : Recording} {x : Run σ} {w : Watch}

/-- A stream derives the snapshots that the recording on disk derives. -/
def StreamDerives (env : Env σ) (o : SnapshotOptions) (fuel : Nat) (guest : Guest σ κ)
    (manifest : Option Manifest) (recorder : Option RecorderId) (sidecar : Option (List UInt8))
    (chunks : List (List UInt8)) (w : Watch) : Prop :=
  ∃ rounds x' w', doBoundaryStream env o rounds fuel guest manifest recorder
      ⟨chunks.flatten, sidecar⟩ (.ofChunks chunks) = some (.ok (x', w')) ∧ SameDerived w w'

theorem metadata_crossings {files : Boundarylog.RecordingFiles} {r₀ : Recording}
    (h : loadRecordingMetadata files = .ok r₀) : r₀.crossings = [] := by
  rw [loadRecordingMetadata] at h
  split at h
  · cases h
  · cases h
    rfl

theorem calls_of_streamDerives (hderive : o.derive = true) (hseek : o.seeking = false)
    (hslice : o.slicing = false) (hload : loadRecording ⟨chunks.flatten, sidecar⟩ = .ok r)
    (hbatch : doBoundaryLog env o fuel guest manifest recorder ⟨chunks.flatten, sidecar⟩ =
      some (.ok (x, w)))
    (h : StreamDerives env o fuel guest manifest recorder sidecar chunks w) :
    r.topLevelExports = [] := by
  obtain ⟨rounds, x', w', hrun, hsame⟩ := h
  obtain ⟨plan, hplan, hreplay, hfinish⟩ := doBoundaryLog_ok hload hbatch
  obtain ⟨points, b, hpoints, hb, rfl⟩ := configure_deriving hderive hseek hslice hplan
  obtain ⟨-, hwatch⟩ := Plan.replay_ok hreplay
  cases hmeta : loadRecordingMetadata ⟨chunks.flatten, sidecar⟩ with
  | error e =>
    rw [doBoundaryStream, hmeta] at hrun
    cases hrun
  | ok r₀ =>
    obtain ⟨plan', out, hplan', -, -, hwatch', hfinish'⟩ :=
      (doBoundaryStream_iff hseek hmeta).mp hrun
    obtain ⟨points', b', hpoints', hb', rfl⟩ := configure_deriving hderive hseek hslice hplan'
    have hindex := hsame.points
    rw [finished_points hwatch hfinish, finished_points hwatch' hfinish', newBuilder_points hb,
      newBuilder_points hb', (quiescentPoints_ok hpoints).2, (quiescentPoints_ok hpoints').2,
      Option.some.injEq, Recording.topLevelExports, metadata_crossings hmeta] at hindex
    have hlen := congrArg List.length hindex
    rw [length_pointsFrom, length_pointsFrom] at hlen
    exact List.length_eq_zero_iff.mp (Nat.succ.inj hlen).symm

/-- **Deriving snapshots from a stream.** Take a recording that both drivers accept completely, and
for which the run on disk derives its snapshots. The run on the stream derives the same ones exactly
if the recording has no top-level call, and the instances that the two drivers make of the module,
each with the host state it has by then, are captured alike. -/
theorem streamed_snapshots_iff (env : Env σ) (o : SnapshotOptions) (fuel rounds : Nat)
    (guest : Guest σ κ) (manifest : Option Manifest) (recorder : Option RecorderId)
    (sidecar : Option (List UInt8)) (chunks : List (List UInt8)) (r r₀ : Recording) (x : Run σ)
    (w : Watch) (out : StreamResult σ) (hne : ∀ chunk ∈ chunks, chunk ≠ [])
    (hderive : o.derive = true) (hseek : o.seeking = false) (hslice : o.slicing = false)
    (hload : loadRecording ⟨chunks.flatten, sidecar⟩ = .ok r)
    (hbatch : doBoundaryLog env o fuel guest manifest recorder ⟨chunks.flatten, sidecar⟩ =
      some (.ok (x, w)))
    (hmeta : loadRecordingMetadata ⟨chunks.flatten, sidecar⟩ = .ok r₀)
    (hstream : streamingReplay rounds fuel guest { manifest } r₀ (.ofChunks chunks) =
      some (.ok out))
    (htr : out.truncation = none) :
    StreamDerives env o fuel guest manifest recorder sidecar chunks w ↔
      r.topLevelExports = [] ∧ StartAlike env fuel guest manifest chunks r r₀ := by
  obtain ⟨plan, hplan, hreplay, hfinish⟩ := doBoundaryLog_ok hload hbatch
  obtain ⟨points, b, hpoints, hb, rfl⟩ := configure_deriving hderive hseek hslice hplan
  obtain ⟨hrun, hwatch⟩ := Plan.replay_ok hreplay
  -- without top-level calls both runs have the same plan, and pass point zero alone
  have hsingle : r.topLevelExports = [] → ∃ st st', x.progress.points = [(0, st)] ∧
      out.progress.points = [(0, st')] ∧
      (StartAlike env fuel guest manifest chunks r r₀ ↔
        capture (env.instanceOf st) 0 = capture (env.instanceOf st') 0) ∧
      o.configure env r₀ { manifest } recorder =
        .ok (derivingPlan o env { manifest } recorder b points.length) := by
    intro hcalls
    obtain ⟨st', state, hst', hstate, hfresh'⟩ := stream_points env hne hload hstream htr hcalls
    obtain ⟨st, hst, hfresh⟩ := replay_points env hrun hcalls
    refine ⟨st, st', hst, hst', ?_, ?_⟩
    · rw [StartAlike, hstate]
      simp only [Except.ok.injEq, exists_eq_left', hfresh, hfresh', Option.some.injEq]
    rw [← hplan]
    refine configure_congr ?_ _ _
    have htop : r₀.topLevelExports = [] := by
      rw [Recording.topLevelExports, metadata_crossings hmeta]
      rfl
    have hnested : r₀.nestedExports = [] := by
      rw [Recording.nestedExports, metadata_crossings hmeta]
      rfl
    rw [quiescentPoints, quiescentPoints, hcalls, htop, hnested, (quiescentPoints_ok hpoints).1]
  constructor
  · intro h
    have hcalls := calls_of_streamDerives hderive hseek hslice hload hbatch h
    refine ⟨hcalls, ?_⟩
    obtain ⟨st, st', hst, hst', halike, hplan'⟩ := hsingle hcalls
    obtain ⟨rounds', x', w', hcommand, hsame⟩ := h
    obtain ⟨plan, out', hplan₁, hout', hprog, hwatch', hfinish'⟩ :=
      (doBoundaryStream_iff hseek hmeta).mp hcommand
    cases hplan'.symm.trans hplan₁
    obtain rfl := streamingReplay_unique hne hstream hout'
    rw [hst] at hwatch
    rw [hst'] at hwatch'
    obtain ⟨snap, v, hsnap, htrail, htaken⟩ := watch_zero hwatch
    obtain ⟨snap', v', hsnap', htrail', htaken'⟩ := watch_zero hwatch'
    have hw : w.taken = [snap] := by
      rw [(finish_keeps rfl hfinish).2, Run.last, htrail]
      exact htaken
    have hw' : w'.taken = [snap'] := by
      rw [(finish_keeps rfl hfinish').2, Run.last, htrail']
      exact htaken'
    obtain rfl : snap' = snap := by
      rw [← List.singleton_inj, ← hw, ← hw']
      exact hsame.taken
    exact halike.mpr (hsnap.trans hsnap'.symm)
  · rintro ⟨hcalls, hcapture⟩
    obtain ⟨st, st', hst, hst', halike, hplan'⟩ := hsingle hcalls
    rw [hst, watch_zero_congr (halike.mp hcapture), ← hst'] at hwatch
    refine ⟨rounds, ⟨out.progress, x.trail⟩, w, (doBoundaryStream_iff hseek hmeta).mpr
      ⟨_, out, hplan', hstream, rfl, hwatch, hfinish⟩, rfl, rfl, rfl⟩

end Agreement

/-- Derive a snapshot at every point. -/
def deriveAll : SnapshotOptions := { derive := true }

/-- A recording in which nothing happens. -/
def emptyChunks : List (List UInt8) := [[0x5b, 0x5d]]

theorem streamed_snapshots_iff_empty :
    ∃ x w, doBoundaryLog blankEnv deriveAll 10 forwarderTwiceScript.guest none (some .whole)
        ⟨emptyChunks.flatten, none⟩ = some (.ok (x, w)) ∧
      StreamDerives blankEnv deriveAll 10 forwarderTwiceScript.guest none (some .whole) none
        emptyChunks w := by
  have hload : loadRecording ⟨emptyChunks.flatten, none⟩ = .ok {} := by decide +kernel
  have hmeta : loadRecordingMetadata ⟨emptyChunks.flatten, none⟩ = .ok {} := by decide +kernel
  have hbatch : returnsWith (fun _ => true)
      (doBoundaryLog blankEnv deriveAll 10 forwarderTwiceScript.guest none (some .whole)
        ⟨emptyChunks.flatten, none⟩) = true := by
    decide +kernel
  have hstream : returnsWith (fun out => out.truncation.isNone)
      (streamingReplay 10 10 forwarderTwiceScript.guest {} {} (.ofChunks emptyChunks)) = true := by
    decide +kernel
  obtain ⟨⟨x, w⟩, hx, -⟩ := returnsWith_iff.mp hbatch
  obtain ⟨out, hout, hended⟩ := returnsWith_iff.mp hstream
  exact ⟨x, w, hx, (streamed_snapshots_iff blankEnv deriveAll 10 10
    forwarderTwiceScript.guest none (some .whole) none emptyChunks {} {} x w out
    (by decide +kernel) rfl rfl rfl hload hx hmeta hout (Option.isNone_iff_eq_none.mp hended)).mpr
    ⟨rfl, none, by decide +kernel, rfl⟩⟩

/-- Two calls: on disk three snapshots are derived. The stream has an index of one point, so the
first snapshot after a call is refused by the builder, and with it the replay. -/
theorem streamed_snapshots_refused :
    (∃ x w, doBoundaryLog blankEnv deriveAll 10 forwarderTwiceScript.guest none (some .whole)
        ⟨forwardedChunks.flatten, none⟩ = some (.ok (x, w)) ∧ w.taken.length = 3 ∧
      ¬ StreamDerives blankEnv deriveAll 10 forwarderTwiceScript.guest none (some .whole) none
        forwardedChunks w) ∧
    (∃ out, streamingReplay 10 10 forwarderTwiceScript.guest {} {} (.ofChunks forwardedChunks) =
      some (.ok out) ∧ out.truncation = none) ∧
    (match doBoundaryStream blankEnv deriveAll 10 10 forwarderTwiceScript.guest none (some .whole)
        ⟨forwardedChunks.flatten, none⟩ (.ofChunks forwardedChunks) with
      | some (.error (.stream (.replay (.hook point _)))) => point == 1
      | _ => false) = true := by
  have hload : loadRecording ⟨forwardedChunks.flatten, none⟩ = .ok forwardedTwice := by
    rw [forwardedChunks, String.toList_ofList]
    decide +kernel
  have hbatch : returnsWith (fun x => x.2.taken.length == 3)
      (doBoundaryLog blankEnv deriveAll 10 forwarderTwiceScript.guest none (some .whole)
        ⟨forwardedChunks.flatten, none⟩) = true := by
    rw [doBoundaryLog, hload]
    decide +kernel
  have hstream : returnsWith (fun out => out.truncation.isNone)
      (streamingReplay 10 10 forwarderTwiceScript.guest {} {} (.ofChunks forwardedChunks)) =
        true := by
    rw [forwardedChunks, String.toList_ofList]
    decide +kernel
  obtain ⟨⟨x, w⟩, hx, htaken⟩ := returnsWith_iff.mp hbatch
  obtain ⟨out, hout, htr⟩ := returnsWith_iff.mp hstream
  refine ⟨⟨x, w, hx, beq_iff_eq.mp htaken, fun h => ?_⟩,
    ⟨out, hout, Option.isNone_iff_eq_none.mp htr⟩, ?_⟩
  · exact absurd (calls_of_streamDerives rfl rfl rfl hload hx h) (by decide +kernel)
  · rw [forwardedChunks, String.toList_ofList]
    decide +kernel

end Cmd
