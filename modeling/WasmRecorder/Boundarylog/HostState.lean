import WasmRecorder.Boundarylog.Recording

/-!
# Host-supplied state

The state a module imports rather than defines, and the writes the host made to it while
servicing imported calls. A recording carries it in the `boundary_state.json` sidecar, in
`Event` records of the stream, or in both.

* `parseHostStateMarker`, `foldHostStateMarker` — the in-stream channel: one record, and
  its effect on the state accumulated so far.
* `reconcileHostState` — which of the two carriers is believed; two that differ are
  refused.

A Go slice is `Option (List α)`, so that an absent list and an empty one differ until
`HostState.normalise` makes them equal.
-/

namespace Boundarylog

open Json (Decode intoStruct intoString intoUint intoInt intoBool intoPtr intoSlice)

/-! ### The document -/

structure MemoryRegion where
  offset : Nat := 0
  bytesB64 : Text := []
  deriving DecidableEq, Repr

structure ImportedMemory where
  moduleName : Text := []
  name : Text := []
  minPages : Nat := 0
  maxPages : Option Nat := none
  data : Option (List MemoryRegion) := none
  deriving DecidableEq, Repr

structure ImportedGlobal where
  moduleName : Text := []
  name : Text := []
  type : Text := []
  «mutable» : Bool := false
  value : Text := []
  deriving DecidableEq, Repr

/-- The state the host supplied before the first exported call. Table entries are kept as
the compact text of their raw message; a state that has any is refused. -/
structure InitialState where
  memories : Option (List ImportedMemory) := none
  globals : Option (List ImportedGlobal) := none
  tables : Option (List Json.Bytes) := none
  deriving DecidableEq, Repr

structure MemoryWrite where
  moduleName : Text := []
  name : Text := []
  offset : Nat := 0
  bytesB64 : Text := []
  deriving DecidableEq, Repr

structure GlobalSet where
  moduleName : Text := []
  name : Text := []
  type : Text := []
  value : Text := []
  deriving DecidableEq, Repr

/-- A write the host made while servicing the imported call at `afterCrossing`. -/
structure HostMutation where
  afterCrossing : Int := 0
  memoryWrites : Option (List MemoryWrite) := none
  globalSets : Option (List GlobalSet) := none
  deriving DecidableEq, Repr

structure HostState where
  version : Int := 0
  initial : InitialState := {}
  mutations : Option (List HostMutation) := none
  /-- An initial record has arrived on the in-stream channel. Not part of the document. -/
  initialSeen : Bool := false
  deriving DecidableEq, Repr

/-! ### Decoding -/

def MemoryRegion.into : MemoryRegion → Json.Value → Decode MemoryRegion :=
  intoStruct [
    ("offset".toList, fun r v => (intoUint 32 r.offset v).map fun x => { r with offset := x }),
    ("bytesB64".toList, fun r v => (intoString r.bytesB64 v).map fun x => { r with bytesB64 := x })]

def ImportedMemory.into : ImportedMemory → Json.Value → Decode ImportedMemory :=
  intoStruct [
    ("module".toList,
      fun r v => (intoString r.moduleName v).map fun x => { r with moduleName := x }),
    ("name".toList, fun r v => (intoString r.name v).map fun x => { r with name := x }),
    ("minPages".toList, fun r v => (intoUint 32 r.minPages v).map fun x => { r with minPages := x }),
    ("maxPages".toList,
      fun r v => (intoPtr (intoUint 32) 0 r.maxPages v).map fun x => { r with maxPages := x }),
    ("data".toList,
      fun r v => (intoSlice MemoryRegion.into {} r.data v).map fun x => { r with data := x })]

def ImportedGlobal.into : ImportedGlobal → Json.Value → Decode ImportedGlobal :=
  intoStruct [
    ("module".toList,
      fun r v => (intoString r.moduleName v).map fun x => { r with moduleName := x }),
    ("name".toList, fun r v => (intoString r.name v).map fun x => { r with name := x }),
    ("type".toList, fun r v => (intoString r.type v).map fun x => { r with type := x }),
    ("mutable".toList, fun r v => (intoBool r.mutable v).map fun x => { r with «mutable» := x }),
    ("value".toList, fun r v => (intoString r.value v).map fun x => { r with value := x })]

def InitialState.into : InitialState → Json.Value → Decode InitialState :=
  intoStruct [
    ("memories".toList,
      fun r v => (intoSlice ImportedMemory.into {} r.memories v).map fun x =>
        { r with memories := x }),
    ("globals".toList,
      fun r v => (intoSlice ImportedGlobal.into {} r.globals v).map fun x =>
        { r with globals := x }),
    ("tables".toList,
      fun r v => (intoSlice (fun _ v => .ok (Json.compact v)) [] r.tables v).map fun x =>
        { r with tables := x })]

def MemoryWrite.into : MemoryWrite → Json.Value → Decode MemoryWrite :=
  intoStruct [
    ("module".toList,
      fun r v => (intoString r.moduleName v).map fun x => { r with moduleName := x }),
    ("name".toList, fun r v => (intoString r.name v).map fun x => { r with name := x }),
    ("offset".toList, fun r v => (intoUint 32 r.offset v).map fun x => { r with offset := x }),
    ("bytesB64".toList, fun r v => (intoString r.bytesB64 v).map fun x => { r with bytesB64 := x })]

def GlobalSet.into : GlobalSet → Json.Value → Decode GlobalSet :=
  intoStruct [
    ("module".toList,
      fun r v => (intoString r.moduleName v).map fun x => { r with moduleName := x }),
    ("name".toList, fun r v => (intoString r.name v).map fun x => { r with name := x }),
    ("type".toList, fun r v => (intoString r.type v).map fun x => { r with type := x }),
    ("value".toList, fun r v => (intoString r.value v).map fun x => { r with value := x })]

def HostMutation.into : HostMutation → Json.Value → Decode HostMutation :=
  intoStruct [
    ("afterCrossing".toList,
      fun r v => (intoInt 64 r.afterCrossing v).map fun x => { r with afterCrossing := x }),
    ("memoryWrites".toList,
      fun r v => (intoSlice MemoryWrite.into {} r.memoryWrites v).map fun x =>
        { r with memoryWrites := x }),
    ("globalSets".toList,
      fun r v => (intoSlice GlobalSet.into {} r.globalSets v).map fun x =>
        { r with globalSets := x })]

def HostState.into : HostState → Json.Value → Decode HostState :=
  intoStruct [
    ("version".toList, fun r v => (intoInt 64 r.version v).map fun x => { r with version := x }),
    ("initial".toList,
      fun r v => (InitialState.into r.initial v).map fun x => { r with initial := x }),
    ("mutations".toList,
      fun r v => (intoSlice HostMutation.into {} r.mutations v).map fun x =>
        { r with mutations := x })]

/-! ### Reading and validating -/

/-- The schema version this package understands. -/
def hostStateVersion : Int := 1

/-- Why a host state is refused. -/
inductive HostStateError where
  | badJson (e : Json.UnmarshalError)
  | badVersion (version : Int)
  | tables
  | memoryUnnamed
  | memoryLimits (moduleName name : Text)
  | regionBase64 (moduleName name : Text) (offset : Nat)
  | globalUnnamed
  | globalType (moduleName name type : Text)
  | globalValue (moduleName name : Text) (e : ValueError)
  | mutationAnchor (afterCrossing : Int)
  | writeBase64 (moduleName name : Text) (offset : Nat)
  | globalImmutable (afterCrossing : Int) (moduleName name : Text)
  /-- An in-stream record without the document its kind announces. -/
  | recordEmpty
  | recordKind (record : Text)
  /-- The sidecar and the stream describe two different states. -/
  | disagreement
  deriving DecidableEq, Repr

/-- A global's type and value, spelled as text. -/
def decodeGlobal (moduleName name type value : Text) :
    Except HostStateError (ScalarType × Value) :=
  match parseScalarType type with
  | none => .error (.globalType moduleName name type)
  | some t =>
    let kind := if t = .f32 ∨ t = .f64 then "Float".toList else "Int".toList
    match RawValue.decode ⟨kind, value⟩ t with
    | .error e => .error (.globalValue moduleName name e)
    | .ok v => .ok (t, v)

def ImportedGlobal.decode (g : ImportedGlobal) : Except HostStateError (ScalarType × Value) :=
  decodeGlobal g.moduleName g.name g.type g.value

def GlobalSet.decode (s : GlobalSet) : Except HostStateError Value :=
  (decodeGlobal s.moduleName s.name s.type s.value).map Prod.snd

def MemoryRegion.decode (m : MemoryRegion) : Option (List UInt8) := Strconv.decodeBase64 m.bytesB64

def MemoryWrite.decode (w : MemoryWrite) : Option (List UInt8) := Strconv.decodeBase64 w.bytesB64

namespace HostState

def memoryList (h : HostState) : List ImportedMemory := h.initial.memories.getD []

def globalList (h : HostState) : List ImportedGlobal := h.initial.globals.getD []

def mutationList (h : HostState) : List HostMutation := h.mutations.getD []

/-- The mutations anchored to one crossing. -/
def mutationsFor (h : HostState) (seq : Nat) : List HostMutation :=
  h.mutationList.filter fun mu => mu.afterCrossing = seq

/-- Is the first global of that name declared mutable? -/
def globalIsMutable (h : HostState) (moduleName name : Text) : Bool :=
  match h.globalList.find? fun g => g.moduleName = moduleName ∧ g.name = name with
  | some g => g.mutable
  | none => false

def validateMemory (m : ImportedMemory) : Except HostStateError Unit := do
  if m.name = [] then throw .memoryUnnamed
  if m.maxPages.any (· < m.minPages) then throw (.memoryLimits m.moduleName m.name)
  (m.data.getD []).forM fun d =>
    if d.decode = none then throw (.regionBase64 m.moduleName m.name d.offset) else pure ()

def validateGlobal (g : ImportedGlobal) : Except HostStateError Unit := do
  if g.name = [] then throw .globalUnnamed
  discard g.decode

def validateMutation (h : HostState) (mu : HostMutation) : Except HostStateError Unit := do
  if mu.afterCrossing < 0 then throw (.mutationAnchor mu.afterCrossing)
  (mu.memoryWrites.getD []).forM fun w =>
    if w.decode = none then throw (.writeBase64 w.moduleName w.name w.offset) else pure ()
  (mu.globalSets.getD []).forM fun s => do
    discard s.decode
    if ¬ h.globalIsMutable s.moduleName s.name then
      throw (.globalImmutable mu.afterCrossing s.moduleName s.name)

/-- Refuse a state that cannot be applied faithfully. -/
def validate (h : HostState) : Except HostStateError Unit := do
  if h.version ≠ hostStateVersion then throw (.badVersion h.version)
  if h.initial.tables.getD [] ≠ [] then throw .tables
  h.memoryList.forM validateMemory
  h.globalList.forM validateGlobal
  h.mutationList.forM h.validateMutation

/-- Replace every absent list by an empty one. -/
def normalise (h : HostState) : HostState :=
  { h with
    initial := {
      memories := some (h.memoryList.map fun m => { m with data := some (m.data.getD []) })
      globals := some h.globalList
      tables := some (h.initial.tables.getD []) }
    mutations := some (h.mutationList.map fun mu =>
      { mu with
        memoryWrites := some (mu.memoryWrites.getD [])
        globalSets := some (mu.globalSets.getD []) }) }

/-- What `json.Marshal` writes of a state: everything but `initialSeen`. -/
def document (h : HostState) : HostState := { h with initialSeen := false }

end HostState

/-- Read the optional sidecar. -/
def loadHostState (sidecar : Option Json.Bytes) : Except HostStateError (Option HostState) :=
  match sidecar with
  | none => .ok none
  | some data =>
    match Json.unmarshal HostState.into {} data with
    | .error e => .error (.badJson e)
    | .ok h =>
      match h.validate with
      | .error e => .error e
      | .ok () => .ok (some h)

/-! ### The in-stream channel -/

def hostStateBoundary : Text := "wasm-host-state".toList

def hostStateRecordInitial : Text := "initial".toList

def hostStateRecordMutation : Text := "mutation".toList

/-- The document nested in a host-state record's `metadata`. -/
structure HostStateMarker where
  boundaryId : Text := []
  version : Int := 0
  record : Text := []
  initial : Option InitialState := none
  mutation : Option HostMutation := none
  deriving DecidableEq, Repr

def HostStateMarker.into : HostStateMarker → Json.Value → Decode HostStateMarker :=
  intoStruct [
    ("boundary_id".toList,
      fun r v => (intoString r.boundaryId v).map fun x => { r with boundaryId := x }),
    ("version".toList, fun r v => (intoInt 64 r.version v).map fun x => { r with version := x }),
    ("record".toList, fun r v => (intoString r.record v).map fun x => { r with record := x }),
    ("initial".toList,
      fun r v => (intoPtr InitialState.into {} r.initial v).map fun x => { r with initial := x }),
    ("mutation".toList,
      fun r v => (intoPtr HostMutation.into {} r.mutation v).map fun x =>
        { r with mutation := x })]

/-- A host-state record that can be applied. -/
inductive HostStateRecord where
  | initial (state : InitialState)
  | mutation (mu : HostMutation)
  deriving DecidableEq, Repr

/-- Does `sub` occur in `s`? -/
def containsText (sub s : Text) : Bool := s.tails.any sub.isPrefixOf

/-- The record a marker of this boundary carries. -/
def HostStateMarker.hostStateRecord (m : HostStateMarker) :
    Except HostStateError HostStateRecord :=
  if m.version ≠ hostStateVersion then .error (.badVersion m.version)
  else if m.record = hostStateRecordInitial then
    match m.initial with
    | none => .error .recordEmpty
    | some doc => .ok (.initial doc)
  else if m.record = hostStateRecordMutation then
    match m.mutation with
    | none => .error .recordEmpty
    | some doc => .ok (.mutation doc)
  else .error (.recordKind m.record)

/-- Read an `Event` payload as a host-state record. `ok none` is "not one"; an error is
"one that cannot be honoured". -/
def parseHostStateMarker (raw : Json.Value) : Except HostStateError (Option HostStateRecord) :=
  match EventRecord.into {} raw with
  | .error _ => .ok none
  | .ok ev =>
    if ev.kind ≠ eventKindTraceLogEvent then .ok none
    else if ¬ containsText hostStateBoundary ev.metadata then .ok none
    else match Json.unmarshal HostStateMarker.into {} (Json.encode ev.metadata) with
      | .error _ => .ok none
      | .ok m =>
        if m.boundaryId ≠ hostStateBoundary then .ok none
        else m.hostStateRecord.map some

/-- Apply one record to the accumulated state, which starts out absent. The first initial
record wins, and the state is validated after every record that changes it. -/
def foldHostStateMarker (state : Option HostState) (m : HostStateRecord) :
    Except HostStateError HostState :=
  let state := state.getD { version := hostStateVersion }
  match m with
  | .initial doc =>
    if state.initialSeen then .ok state
    else
      let state := { state with initialSeen := true, initial := doc }
      state.validate.map fun _ => state
  | .mutation mu =>
    let state := { state with mutations := some (state.mutationList ++ [mu]) }
    state.validate.map fun _ => state

/-- Decide which carrier to believe. The comparison is of the normalised documents. -/
def reconcileHostState : (sidecar streamed : Option HostState) →
    Except HostStateError (Option HostState)
  | sidecar, none => .ok sidecar
  | none, some streamed => .ok (some streamed)
  | some sidecar, some streamed =>
    if sidecar.normalise.document = streamed.normalise.document then .ok (some sidecar.normalise)
    else .error .disagreement

end Boundarylog
