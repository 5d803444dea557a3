import WasmRecorder.Boundarylog.Hooks
import WasmRecorder.Boundarylog.StreamReplay
import WasmRecorder.Wasmsnapshot.SliceWriter

/-!
# The snapshot options of the command

How `--snapshots`, `--seek-from`, `--seek-to` and `--slice-dir` are wired into a replay. The
command only chooses the range of the replay, the recorder the module is instantiated with, and the
hooks that are called at quiescent points; everything else is done by the drivers.

* `Plan.replay`, `Plan.streamingReplay` — the two drivers under a plan.
* `doBoundaryLog`, `doBoundaryStream` — the command, for a recording on disk and for one that is
  still being produced.

The module instance behind a state of the guest, the container that is seeked with and the host-wide
page cache are given by an `Env`.
-/

namespace Cmd

open Boundarylog (Text State Recording Options Hook chainHooks Guest Progress Crossing
  RecordingFiles Manifest StreamReader ReplayError StreamReplayError TruncationError)
open Wasmsnapshot (QuiescentPoint Snapshot Builder Streams SystemCache IndexRecord SliceWriter
  SliceOptions SliceError Sealing Uint128 capture newBuilder newTiers)

/-! ### Options -/

/-- The value of `--seek-from` that means that no seek was asked for. -/
def seekUnset : Int := -1

structure SnapshotOptions where
  /-- Derive snapshots during the replay. -/
  derive : Bool := false
  /-- Of how many points one is snapshotted. -/
  every : Int := 1
  useSystemCache : Bool := false
  promote : Bool := false
  /-- The container to seek with. -/
  source : Text := []
  /-- The point to seek to. -/
  from_ : Int := seekUnset
  /-- The point to stop at; zero is the end of the recording. -/
  to_ : Int := 0
  sliceDir : Text := []
  sliceEvery : Int := 0
  sliceBytes : Int := 0
  sliceSnapshotEvery : Int := 1
  deriving DecidableEq, Repr

inductive OptionError where
  | negativePoint
  | emptyRange (stop start : Int)
  | sourceMissing
  | sourceUnused
  | every
  | promoteUnused
  | negativeSlice
  | sliceSnapshotEvery
  | sliceDirMissing
  | sliceAndSeek
  | sliceAndDerive
  deriving DecidableEq, Repr

namespace SnapshotOptions

def slicing (o : SnapshotOptions) : Bool := decide (o.sliceDir ≠ [])

def seeking (o : SnapshotOptions) : Bool := decide (0 ≤ o.from_)

/-- Check the combination of flags. -/
def validate (o : SnapshotOptions) : Except OptionError Unit :=
  if o.from_ < seekUnset ∨ o.to_ < 0 then .error .negativePoint
  else if o.to_ ≠ 0 ∧ o.seeking ∧ o.to_ ≤ o.from_ then .error (.emptyRange o.to_ o.from_)
  else if o.seeking ∧ o.source = [] then .error .sourceMissing
  else if o.source ≠ [] ∧ ¬ o.seeking then .error .sourceUnused
  else if o.every < 1 then .error .every
  else if o.promote ∧ ¬ o.derive ∧ ¬ o.slicing then .error .promoteUnused
  else if o.sliceEvery < 0 ∨ o.sliceBytes < 0 then .error .negativeSlice
  else if o.sliceSnapshotEvery < 1 then .error .sliceSnapshotEvery
  else if ¬ o.slicing ∧ (o.sliceEvery ≠ 0 ∨ o.sliceBytes ≠ 0) then .error .sliceDirMissing
  else if o.slicing ∧ o.seeking then .error .sliceAndSeek
  else if o.slicing ∧ o.derive then .error .sliceAndDerive
  else .ok ()

theorem validate_ok {o : SnapshotOptions} (h : o.validate = .ok ()) :
    0 ≤ o.to_ ∧ (o.to_ ≠ 0 → o.seeking = true → o.from_ < o.to_) ∧
      ¬ (o.slicing = true ∧ o.seeking = true) := by
  simp only [validate, Fallible.ite_error_eq_ok] at h
  obtain ⟨hneg, hrange, -, -, -, -, -, -, -, hslice, -⟩ := h
  exact ⟨not_lt.mp fun hlt => hneg (.inr hlt),
    fun hto hseek => not_le.mp fun hle => hrange ⟨hto, hseek, hle⟩, hslice⟩

end SnapshotOptions

/-! ### Quiescent points -/

/-- The points before each of the exported calls from the `i`th on, and the last one, which no call
follows. -/
def pointsFrom : Nat → List Crossing → List QuiescentPoint
  | i, [] => [⟨i, i, -1⟩]
  | i, c :: cs => ⟨i, i, c.seq⟩ :: pointsFrom (i + 1) cs

/-- The quiescent points of a recording, unless an exported call is made during another. -/
def quiescentPoints (r : Recording) : Except (List Crossing) (List QuiescentPoint) :=
  if r.nestedExports ≠ [] then .error r.nestedExports
  else .ok (pointsFrom 0 r.topLevelExports)

/-! ### Hooks -/

/-- A trace recorder: the one of the whole trace, or the one made for a slice. -/
inductive RecorderId where
  | whole
  | slice (n : Nat)
  deriving DecidableEq, Repr

/-- What the hooks of a run hold on to. -/
structure Watch where
  /-- The recorder that the module writes to. -/
  recorder : Option RecorderId := none
  builder : Option Builder := none
  /-- The snapshots that were put into the builder. -/
  taken : List Snapshot := []
  slices : Option SliceWriter := none

/-- What the command meets outside. -/
structure Env (σ : Type) where
  hashPage : List UInt8 → Uint128
  /-- The instance in a state of the guest. -/
  instanceOf : State σ → Wasm.ModuleInstance
  /-- The state with another instance in its place. -/
  withInstance : State σ → Wasm.ModuleInstance → State σ
  /-- The snapshot streams of a container, if it has them; an error if it cannot be read. -/
  container : Text → Except Text (Option Streams)
  /-- The host-wide page cache when the replay is configured, and at each point of it. -/
  host : Option SystemCache
  hostAt : Nat → Option SystemCache
  /-- What becomes of a slice that is sealed at a point, and of the one sealed at the end. -/
  sealing : Nat → Sealing
  lastSealing : Sealing

section Hooks

variable {σ : Type}

/-- Attach a recorder when a point is reached. -/
def attachHook (want : Int) (recorder : Option RecorderId) : Hook Watch σ := fun point _ w =>
  if (point : Int) ≠ want then .ok w else .ok { w with recorder }

/-- Take a snapshot at one point in `every`, and at the last of `count` points. -/
def deriveHook (env : Env σ) (every : Int) (count : Nat) : Hook Watch σ := fun point st w =>
  if (point : Int).tmod every ≠ 0 ∧ (point : Int) ≠ (count : Int) - 1 then .ok w
  else match w.builder with
    | none => .ok w
    | some b =>
      match capture (env.instanceOf st) point with
      | .error _ => .error "capture".toList
      | .ok snap =>
        let b := { b with tiers := b.tiers.refresh (env.hostAt point) }
        match b.add env.hashPage snap with
        | .error _ => .error "snapshot builder".toList
        | .ok b => .ok { w with builder := some b, taken := w.taken ++ [snap] }

/-- Hand a point to the slice writer, which attaches the recorder of the slice it opens. -/
def sliceHook (env : Env σ) : Hook Watch σ := fun point st w =>
  match w.slices with
  | none => .ok w
  | some sw =>
    match SliceWriter.atQuiescentPoint env.hashPage
        ⟨point, env.instanceOf st, env.hostAt point, env.sealing point⟩ sw with
    | .error _ _ => .error "slice writer".toList
    | .ok () sw' => .ok { w with recorder := sw'.attached.map .slice, slices := some sw' }

end Hooks

/-! ### Configuration -/

inductive ConfigureError where
  | options (e : OptionError)
  | slices (e : SliceError)
  | nestedExports (cs : List Crossing)
  | container (e : Text)
  /-- The container has no snapshots that this build can read. -/
  | noUsableSnapshots
  | unreadable
  | noSnapshotBefore (point : Int)
  | snapshot
  | builder (e : Wasmsnapshot.BuilderError)

/-- How a replay is to be run. -/
structure Plan (σ : Type) where
  opts : Options σ
  hooks : List (Hook Watch σ)
  /-- The recorder the module is instantiated with, and what the hooks start from. -/
  start : Watch
  slicing : Bool := false

namespace SnapshotOptions

variable {σ : Type}

/-- The seek part of a plan: the range, the recorder to start with and the hook that attaches it. -/
structure Seek (σ : Type) where
  opts : Options σ
  recorder : Option RecorderId
  hooks : List (Hook Watch σ)

/-- Start at a snapshot. If the point asked for is past it, the recorder is only attached there. -/
def seekVia (o : SnapshotOptions) (env : Env σ) (opts : Options σ) (recorder : Option RecorderId)
    (nearest : IndexRecord) (snap : Snapshot) : Seek σ :=
  let opts := { opts with
    fromPoint := nearest.ordinal.toNat
    resume := some fun st =>
      match snap.restore (env.instanceOf st) with
      | .error _ => .error "restore".toList
      | .ok m => .ok (env.withInstance st m)
    toPoint := if 0 < o.to_ then o.to_ else opts.toPoint }
  if (nearest.ordinal.toNat : Int) < o.from_ then ⟨opts, none, [attachHook o.from_ recorder]⟩
  else ⟨opts, recorder, []⟩

def seekPlan (o : SnapshotOptions) (env : Env σ) (opts : Options σ) (recorder : Option RecorderId) :
    Except ConfigureError (Seek σ) :=
  if ¬ o.seeking then .ok ⟨opts, recorder, []⟩
  else match env.container o.source with
    | .error e => .error (.container e)
    | .ok none => .error .noUsableSnapshots
    | .ok (some streams) =>
      -- a seek always consults the host-wide cache
      match Wasmsnapshot.load env.hashPage streams env.host with
      | .error _ => .error .unreadable
      | .ok (.unsupported _) => .error .noUsableSnapshots
      | .ok (.set set) =>
        match set.nearest o.from_ with
        | none => .error (.noSnapshotBefore o.from_)
        | some nearest =>
          match set.snapshot env.hashPage nearest with
          | .error _ => .error .snapshot
          | .ok snap => .ok (o.seekVia env opts recorder nearest snap)

/-- The builder and the hook of `--snapshots`. -/
def derivePlan (o : SnapshotOptions) (env : Env σ) (points : List QuiescentPoint) :
    Except ConfigureError (Option Builder × List (Hook Watch σ)) :=
  if ¬ o.derive then .ok (none, [])
  else match newBuilder points (newTiers o.useSystemCache env.host) ⟨false, o.promote⟩ with
    | .error e => .error (.builder e)
    | .ok b =>
      .ok (some b, [deriveHook env (if o.every < 1 then 1 else o.every) points.length])

def sliceOptions (o : SnapshotOptions) : SliceOptions where
  policy := ⟨o.sliceEvery, o.sliceBytes⟩
  snapshotEvery := o.sliceSnapshotEvery
  useSystemCache := o.useSystemCache
  encode := ⟨false, o.promote⟩

/-- The slice writer owns the recorder of the module, so the one of the whole trace is not
installed. -/
def slicePlan (o : SnapshotOptions) (env : Env σ) (opts : Options σ) :
    Except ConfigureError (Plan σ) :=
  match Wasmsnapshot.newSliceWriter o.sliceOptions with
  | .error e => .error (.slices e)
  | .ok sw => .ok ⟨opts, [sliceHook env], { slices := some sw }, true⟩

/-- Wire the requested behaviour into a replay of a recording. -/
def configure (o : SnapshotOptions) (env : Env σ) (r : Recording) (opts : Options σ)
    (recorder : Option RecorderId) : Except ConfigureError (Plan σ) :=
  match o.validate with
  | .error e => .error (.options e)
  | .ok () =>
    if o.slicing then o.slicePlan env opts
    else match quiescentPoints r with
      | .error cs => .error (.nestedExports cs)
      | .ok points =>
        match o.seekPlan env opts recorder with
        | .error e => .error e
        | .ok s =>
          match o.derivePlan env points with
          | .error e => .error e
          | .ok (builder, hooks) =>
            .ok ⟨s.opts, s.hooks ++ hooks, { recorder := s.recorder, builder }, false⟩

end SnapshotOptions

/-! ### Running a plan -/

section Runs

variable {σ κ : Type}

/-- A replay that returned, with the states its hooks went through. -/
structure Run (σ : Type) where
  progress : Progress σ
  /-- One state for each point that was passed. -/
  trail : List Watch

/-- What the hooks hold on to in the end. -/
def Run.last (x : Run σ) (start : Watch) : Watch := x.trail.getLastD start

/-- The exported calls that were made while a recorder was attached. The `i`th call is made after
the `i`th point was passed. -/
def Run.recordedCalls (x : Run σ) : List Crossing :=
  ((x.trail.zip x.progress.calls).filter fun e => e.1.recorder.isSome).map fun e => e.2.crossing

/-- Replay a recording under a plan. -/
def Plan.replay (plan : Plan σ) (fuel : Nat) (guest : Guest σ κ) (r : Recording) :
    Option (Except ReplayError (Run σ)) :=
  match Boundarylog.replay fuel guest plan.opts r with
  | none => none
  | some (.error e) => some (.error e)
  | some (.ok p) => some (((chainHooks plan.hooks).watch plan.start p.points).map (Run.mk p))

/-- Replay a stream under a plan. -/
def Plan.streamingReplay (plan : Plan σ) (rounds fuel : Nat) (guest : Guest σ κ) (r : Recording)
    (reader : StreamReader) :
    Option (Except StreamReplayError (Run σ × Option TruncationError)) :=
  match Boundarylog.streamingReplay rounds fuel guest plan.opts r reader with
  | none => none
  | some (.error e) => some (.error e)
  | some (.ok out) =>
    match (chainHooks plan.hooks).watch plan.start out.progress.points with
    | .error e => some (.error (.replay e))
    | .ok trail => some (.ok (⟨out.progress, trail⟩, out.truncation))

/-! ### The command -/

inductive CommandError where
  | load (e : Boundarylog.LoadError)
  | configure (e : ConfigureError)
  | replay (e : ReplayError)
  | stream (e : StreamReplayError)
  | streamAndSeek
  | noSnapshotTaken
  | base (e : Wasmsnapshot.BuilderError)
  | slices (e : SliceError)

/-- What the plan does once the replay has returned: point zero is marked as a base before the
streams are written, or the last slice is sealed. -/
def Plan.finish (plan : Plan σ) (env : Env σ) (w : Watch) : Except CommandError Watch :=
  if plan.slicing then
    match w.slices with
    | none => .ok w
    | some sw =>
      match SliceWriter.finish env.lastSealing sw with
      | .error e _ => .error (.slices e)
      | .ok _ sw' => .ok { w with recorder := none, slices := some sw' }
  else match w.builder with
    | none => .ok w
    | some b =>
      if b.snapshotCount = 0 then .error .noSnapshotTaken
      else match b.markBase 0 with
        | .error e => .error (.base e)
        | .ok b => .ok { w with builder := some b }

/-- A replay of a recording on disk, and what it leaves in the hooks. -/
def doBoundaryLog (env : Env σ) (o : SnapshotOptions) (fuel : Nat) (guest : Guest σ κ)
    (manifest : Option Manifest) (recorder : Option RecorderId) (files : RecordingFiles) :
    Option (Except CommandError (Run σ × Watch)) :=
  match Boundarylog.loadRecording files with
  | .error e => some (.error (.load e))
  | .ok r =>
    match o.configure env r { manifest } recorder with
    | .error e => some (.error (.configure e))
    | .ok plan =>
      match plan.replay fuel guest r with
      | none => none
      | some (.error e) => some (.error (.replay e))
      | some (.ok x) => some ((plan.finish env (x.last plan.start)).map (x, ·))

/-- A replay of a recording that is still being produced. The plan is made from a recording without
crossings. -/
def doBoundaryStream (env : Env σ) (o : SnapshotOptions) (rounds fuel : Nat) (guest : Guest σ κ)
    (manifest : Option Manifest) (recorder : Option RecorderId) (files : RecordingFiles)
    (reader : StreamReader) : Option (Except CommandError (Run σ × Watch)) :=
  match Boundarylog.loadRecordingMetadata files with
  | .error e => some (.error (.load e))
  | .ok r =>
    if o.seeking then some (.error .streamAndSeek)
    else match o.configure env r { manifest } recorder with
      | .error e => some (.error (.configure e))
      | .ok plan =>
        match plan.streamingReplay rounds fuel guest r reader with
        | none => none
        | some (.error e) => some (.error (.stream e))
        | some (.ok (x, _)) => some ((plan.finish env (x.last plan.start)).map (x, ·))

end Runs

end Cmd
