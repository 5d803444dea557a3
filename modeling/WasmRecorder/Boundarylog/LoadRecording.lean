import WasmRecorder.Boundarylog.CallGroups

/-!
# Loading a recording

`loadRecording` reads a finished recording whole: the sidecar, then `trace.json` as one JSON
array, then the crossings and the host state its records carry.

* `reconstructCrossings_marked` — the marker witness is set when a crossing recovered is
  bracketed by markers.
* `loadRecording_inv` — what is known of a loaded recording: its crossings satisfy the
  assembler's invariant, so a crossing's `seq` is its position.
-/

namespace Boundarylog

open Fallible

/-- A parsed boundary recording. -/
structure Recording where
  /-- Every recovered crossing, in call order. -/
  crossings : List Crossing := []
  hostState : Option HostState := none
  /-- The realm markers name the import edge in their own right. -/
  markersIdentifyImports : Bool := false
  deriving DecidableEq, Repr

/-- The export crossings the host initiated directly. -/
def Recording.topLevelExports (r : Recording) : List Crossing :=
  r.crossings.filter Crossing.isTopLevelExport

/-- The export crossings made while another crossing was open. -/
def Recording.nestedExports (r : Recording) : List Crossing :=
  r.crossings.filter Crossing.isNestedExport

/-- The files of a recording that bear on its replay. -/
structure RecordingFiles where
  /-- `trace.json` -/
  events : Json.Bytes
  /-- `boundary_state.json` -/
  sidecar : Option Json.Bytes := none
  deriving DecidableEq, Repr

inductive LoadError where
  | sidecar (e : HostStateError)
  | events (e : Json.UnmarshalError)
  | assembly (e : AssemblyError)
  | hostState (e : HostStateError)
  deriving DecidableEq, Repr

/-- Everything but the crossings. -/
def loadRecordingMetadata (files : RecordingFiles) : Except LoadError Recording :=
  match loadHostState files.sidecar with
  | .error e => .error (.sidecar e)
  | .ok state => .ok { hostState := state }

/-- `json.Unmarshal` of `trace.json` into a slice of records. -/
def unmarshalEvents (events : Json.Bytes) : Json.Decode (List TraceEvent) :=
  (Json.unmarshal (Json.intoSlice TraceEvent.into {}) none events).map fun evs => evs.getD []

def loadRecording (files : RecordingFiles) : Except LoadError Recording := do
  let rec ← loadRecordingMetadata files
  match unmarshalEvents files.events with
  | .error e => .error (.events e)
  | .ok events =>
    match reconstructCrossings events with
    | .error e => .error (.assembly e)
    | .ok (crossings, marked, streamed) =>
      match reconcileHostState rec.hostState streamed with
      | .error e => .error (.hostState e)
      | .ok state =>
        return { crossings, hostState := state, markersIdentifyImports := marked }

theorem Assembler.Inv.saw_eq {a : Assembler} (h : a.Inv) :
    a.sawImportMarker = a.crossings.any Crossing.markerBracketed := by
  rw [Bool.eq_iff_iff, h.witness, List.any_eq_true]
  constructor
  · rintro ⟨i, c, hc, hm⟩
    exact ⟨c, List.mem_of_getElem? hc, hm⟩
  · rintro ⟨c, hc, hm⟩
    obtain ⟨i, hi⟩ := List.mem_iff_getElem?.mp hc
    exact ⟨i, c, hi, hm⟩

theorem reconstructCrossings_ok {events : List TraceEvent} {crossings : List Crossing}
    {marked : Bool} {streamed : Option HostState}
    (h : reconstructCrossings events = .ok (crossings, marked, streamed)) :
    ∃ a a', feed Assembler.push {} events = .ok a ∧ a.finish = .ok a' ∧
      a'.crossings = crossings ∧ a'.sawImportMarker = marked ∧ a'.hostState = streamed := by
  obtain ⟨a, ha, hrest⟩ := bind_eq_ok.mp h
  obtain ⟨a', ha', hpure⟩ := bind_eq_ok.mp hrest
  cases hpure
  exact ⟨a, a', ha, ha', rfl, rfl, rfl⟩

theorem reconstructCrossings_marked {events : List TraceEvent} {crossings : List Crossing}
    {marked : Bool} {state : Option HostState}
    (h : reconstructCrossings events = .ok (crossings, marked, state)) :
    marked = crossings.any Crossing.markerBracketed := by
  obtain ⟨a, a', ha, ha', rfl, rfl, -⟩ := reconstructCrossings_ok h
  have hinv := (Assembler.feed_evolves Assembler.inv_empty ha).inv
  exact (Assembler.finish_evolves hinv ha').inv.saw_eq

theorem loadRecording_ok {files : RecordingFiles} {r : Recording}
    (h : loadRecording files = .ok r) :
    ∃ sidecar events streamed, loadHostState files.sidecar = .ok sidecar ∧
      unmarshalEvents files.events = .ok events ∧
      reconstructCrossings events = .ok (r.crossings, r.markersIdentifyImports, streamed) ∧
      reconcileHostState sidecar streamed = .ok r.hostState := by
  obtain ⟨base, hbase, hrest⟩ := bind_eq_ok.mp h
  rw [loadRecordingMetadata] at hbase
  split at hbase
  · cases hbase
  · next sidecar hside =>
    cases hbase
    split at hrest
    · cases hrest
    · next events hevents =>
      split at hrest
      · cases hrest
      · next crossings marked streamed hrec =>
        split at hrest
        · cases hrest
        · next state hstate =>
          cases hrest
          exact ⟨sidecar, events, streamed, hside, hevents, hrec, hstate⟩

theorem loadRecording_assembled {b : Json.Bytes} {sidecar : Option Json.Bytes}
    {state : Option HostState} {events : List TraceEvent} {a a' : Assembler}
    (hside : loadHostState sidecar = .ok state) (hevents : unmarshalEvents b = .ok events)
    (ha : feed Assembler.push {} events = .ok a) (ha' : a.finish = .ok a') :
    loadRecording ⟨b, sidecar⟩ =
      ((reconcileHostState state a'.hostState).mapError LoadError.hostState).map
        fun h => ⟨a'.crossings, h, a'.sawImportMarker⟩ := by
  have hrec : reconstructCrossings events =
      .ok (a'.crossings, a'.sawImportMarker, a'.hostState) := by
    rw [reconstructCrossings, ha]
    change (a.finish >>= _) = _
    rw [ha']
    rfl
  have hmeta : loadRecordingMetadata ⟨b, sidecar⟩ = .ok { hostState := state } := by
    rw [loadRecordingMetadata, hside]
  simp only [loadRecording, hmeta, bind, Except.bind, hevents, hrec]
  cases reconcileHostState state a'.hostState <;> rfl

theorem loadRecording_inv {files : RecordingFiles} {r : Recording}
    (h : loadRecording files = .ok r) :
    ∃ a : Assembler, a.Inv ∧ a.crossings = r.crossings ∧
      a.sawImportMarker = r.markersIdentifyImports := by
  obtain ⟨sidecar, events, streamed, -, -, hrec, -⟩ := loadRecording_ok h
  obtain ⟨a, a', ha, ha', hcs, hsaw, -⟩ := reconstructCrossings_ok hrec
  have hinv := (Assembler.feed_evolves Assembler.inv_empty ha).inv
  exact ⟨a', (Assembler.finish_evolves hinv ha').inv, hcs, hsaw⟩

theorem loadRecording_seq {files : RecordingFiles} {r : Recording}
    (h : loadRecording files = .ok r) {i : Nat} {c : Crossing} (hc : r.crossings[i]? = some c) :
    c.seq = i := by
  obtain ⟨a, hinv, hcs, -⟩ := loadRecording_inv h
  exact hinv.seq i c (hcs ▸ hc)

end Boundarylog
