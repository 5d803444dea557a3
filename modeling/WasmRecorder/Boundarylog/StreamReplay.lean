import WasmRecorder.Boundarylog.ReplaySteps
import WasmRecorder.Boundarylog.StreamReader

/-!
# Replaying a recording as it arrives

The streaming driver drives one exported call for each call group its reader hands out,
with the stubs and the checks of the batch driver.

* `prepareOnce` — instantiate the module: before anything is read, unless the module imports
  a memory that nothing has described yet, and then when the first group has arrived.
* `streamingReplay` — the driver. `rounds` bounds the number of times it asks for a group
  and `fuel` the steps of each call of the guest, so "it returns" is "for some bounds".

The recording's host state is the reader's own when the recording has none of its own: it
then grows as the stream is read. `Session.shared` says that it is.
-/

namespace Boundarylog

open Fallible

variable {σ κ : Type}

inductive StreamReplayError where
  | carriesCrossings (n : Nat)
  | seeking
  | replay (e : ReplayError)
  | stream (e : StreamError)
  | hostState (e : HostStateError)
  | emptyGroup
  | numbering (seq position : Nat)
  | twoExports (c c' : Crossing)
  | noExport (n : Nat)
  | exportNotFirst (position : Nat)
  /-- A call matched a crossing recovered without markers in a recording that has some. -/
  | mixedVintages
  /-- The stream was cut short before a call without values could be classified. -/
  | unclassified (kind : TruncationKind) (strict : Option ReplayError)
  deriving DecidableEq, Repr

/-! ### Call groups -/

/-- A call group on its way into the recording. -/
structure Appending where
  recording : Recording
  /-- The group's top-level exported call, once seen. -/
  top : Option Crossing := none
  nested : List Crossing := []
  deriving DecidableEq, Repr

/-- Take in one crossing of a group. Its position is the number of crossings before it. -/
def appendCrossing (acc : Appending) (c : Crossing) : Except StreamReplayError Appending :=
  let r := acc.recording
  let acc := { acc with recording := { r with
    crossings := r.crossings ++ [c]
    -- once seen, a marker of an import edge stays seen
    markersIdentifyImports := r.markersIdentifyImports || c.markerBracketed } }
  if c.seq ≠ r.crossings.length then .error (.numbering c.seq r.crossings.length)
  else if c.kind = .export then
    if 0 < c.depth then .ok { acc with nested := acc.nested ++ [c] }
    else match acc.top with
      | some c' => .error (.twoExports c' c)
      | none => .ok { acc with top := some c }
  else .ok acc

/-- Add the crossings of a call group to the recording and return its top-level export. -/
def appendGroup (r : Recording) (group : List Crossing) :
    Except StreamReplayError (Recording × Crossing) :=
  if group = [] then .error .emptyGroup
  else match feed appendCrossing { recording := r } group with
    | .error e => .error e
    | .ok acc =>
      match refuseNestedExports acc.nested with
      | .error e => .error (.replay e)
      | .ok () =>
        match acc.top with
        | none => .error (.noExport group.length)
        | some c =>
          if c.seq ≠ r.crossings.length then .error (.exportNotFirst (c.seq - r.crossings.length))
          else .ok (acc.recording, c)

/-! ### Sessions -/

/-- A streaming replay whose module has been instantiated. -/
structure Session (σ κ : Type) where
  driver : Driver σ κ
  progress : Progress σ
  recording : Recording
  /-- The recording's host state is the reader's. -/
  shared : Bool
  point : Nat := 0

/-- The module is instantiated, or it waits for the host state. -/
inductive Stage (σ κ : Type) where
  | waiting (r : Recording)
  | prepared (s : Session σ κ)

/-- Instantiate the module, unless that has been done, with the host state the stream has
carried so far. -/
def prepareOnce (fuel : Nat) (guest : Guest σ κ) (opts : Options σ)
    (streamed : Option HostState) : Stage σ κ → Option (Except StreamReplayError (Session σ κ))
  | .prepared s => some (.ok s)
  | .waiting r =>
    match reconcileHostState r.hostState streamed with
    | .error e => some (.error (.hostState e))
    | .ok state =>
      match planImports guest.compiled opts.manifest with
      | .error e => some (.error (.replay (.plan e)))
      | .ok plans =>
        let d : Driver σ κ := ⟨guest, plans, true, opts.manifest, opts.atQuiescentPoint⟩
        let r' := { r with hostState := state }
        match d.prepare fuel r' with
        | none => none
        | some (.error e) => some (.error (.replay e))
        | some (.ok p) =>
          match d.passPoint 0 p with
          | .error e => some (.error (.replay e))
          | .ok p =>
            some (.ok ⟨d, p, r', r.hostState.isNone && streamed.isSome, 0⟩)

namespace Session

/-- The reader has put together more host state. -/
def refresh (streamed : Option HostState) (s : Session σ κ) : Session σ κ :=
  if s.shared then { s with recording := { s.recording with hostState := streamed } } else s

/-- One round: take in a call group, drive its exported call and pass the quiescent point. -/
def driveGroup (fuel : Nat) (s : Session σ κ) (group : List Crossing) :
    Option (Except StreamReplayError (Session σ κ)) :=
  match appendGroup s.recording group with
  | .error e => some (.error e)
  | .ok (r, c) =>
    match s.driver.checkExportCrossing c with
    | .error e => some (.error (.replay e))
    | .ok () =>
      match s.driver.driveCall fuel r s.point s.progress c with
      | none => none
      | some (.error e) => some (.error (.replay e))
      | some (.ok p) => some (.ok { s with recording := r, progress := p, point := s.point + 1 })

end Session

/-! ### The driver -/

/-- What a streaming replay that returns no error reports. -/
structure StreamResult (σ : Type) where
  progress : Progress σ
  recording : Recording
  /-- The producer stopped before finishing the recording. -/
  truncation : Option TruncationError

/-- Settle the calls that could not be classified when they were made, now that the stream is
over. On a truncated stream the absence of markers proves nothing. -/
def resolveDeferredValuelessImports (r : Recording) (s : Replayer)
    (truncation : Option TruncationError) : Except StreamReplayError Unit :=
  match s.deferredValueless with
  | none => .ok ()
  | some strict =>
    if r.markersIdentifyImports then
      match strict with
      | some e => .error (.replay e)
      | none => .error .mixedVintages
    else match truncation with
      | some t => .error (.unclassified t.kind strict)
      | none => .ok ()

/-- The end of a streaming replay. Every crossing of a complete stream must have been
consumed. -/
def Session.finish (s : Session σ κ) (truncation : Option TruncationError) :
    Except StreamReplayError (StreamResult σ) :=
  let p := { s.progress with replayer := { s.progress.replayer with
    result := { s.progress.replayer.result with fromPoint := 0, toPoint := s.point } } }
  match resolveDeferredValuelessImports s.recording p.replayer truncation with
  | .error e => .error e
  | .ok () =>
    if truncation = none ∧ p.replayer.cursor ≠ s.recording.crossings.length then
      .error (.replay (.divergence
        (.crossingCount p.replayer.cursor s.recording.crossings.length)))
    else .ok ⟨p, s.recording, truncation⟩

/-- Ask for call groups and drive them until the stream ends. -/
def streamLoop (fuel : Nat) (guest : Guest σ κ) (opts : Options σ) :
    Nat → StreamReader → Stage σ κ →
    Option (Except StreamReplayError (StreamReader × Stage σ κ × Option TruncationError))
  | 0, _, _ => none
  | rounds + 1, reader, stage =>
    match reader.nextGroup with
    | (reader', .error .eof) => some (.ok (reader', stage, none))
    | (reader', .error (.failed (.truncation t))) => some (.ok (reader', stage, some t))
    | (_, .error (.failed e)) => some (.error (.stream e))
    | (reader', .ok group) =>
      match prepareOnce fuel guest opts reader'.asm.hostState stage with
      | none => none
      | some (.error e) => some (.error e)
      | some (.ok s) =>
        match (s.refresh reader'.asm.hostState).driveGroup fuel group with
        | none => none
        | some (.error e) => some (.error e)
        | some (.ok s') => streamLoop fuel guest opts rounds reader' (.prepared s')

/-- Instantiate at once unless the module imports a memory nothing has described. -/
def startStream (fuel : Nat) (guest : Guest σ κ) (opts : Options σ) (r : Recording)
    (streamed : Option HostState) : Option (Except StreamReplayError (Stage σ κ)) :=
  match undescribedImportedMemory guest.compiled r.hostState with
  | some _ => some (.ok (.waiting r))
  | none =>
    match prepareOnce fuel guest opts streamed (.waiting r) with
    | none => none
    | some (.error e) => some (.error e)
    | some (.ok s) => some (.ok (.prepared s))

/-- Drive the stream to its end. -/
def driveStream (rounds fuel : Nat) (guest : Guest σ κ) (opts : Options σ) (reader : StreamReader)
    (stage : Stage σ κ) : Option (Except StreamReplayError (StreamResult σ)) :=
  match streamLoop fuel guest opts rounds reader stage with
  | none => none
  | some (.error e) => some (.error e)
  | some (.ok (reader', stage', truncation)) =>
    -- a stream without groups still leaves an instantiated module behind
    match prepareOnce fuel guest opts reader'.asm.hostState stage' with
    | none => none
    | some (.error e) => some (.error e)
    | some (.ok s) => some ((s.refresh reader'.asm.hostState).finish truncation)

/-- Re-execute a module against a recording that is still being produced. -/
def streamingReplay (rounds fuel : Nat) (guest : Guest σ κ) (opts : Options σ) (r : Recording)
    (reader : StreamReader) : Option (Except StreamReplayError (StreamResult σ)) :=
  if r.crossings ≠ [] then some (.error (.carriesCrossings r.crossings.length))
  else if opts.fromPoint ≠ 0 ∨ opts.toPoint ≠ 0 ∨ opts.resume.isSome then some (.error .seeking)
  else match startStream fuel guest opts r reader.asm.hostState with
    | none => none
    | some (.error e) => some (.error e)
    | some (.ok stage) => driveStream rounds fuel guest opts reader stage

end Boundarylog
