import WasmRecorder.Boundarylog.HostState
import WasmRecorder.Lib.Fallible

/-!
# Recovering crossings from trace records

The assembler consumes trace records one at a time and recovers the boundary crossings
they render. Exports are bracketed by `Call` / `Return`, imports by their realm markers or,
in older recordings, by their value runs alone. A *call group* is complete when the stack
of open crossings empties.

* `Assembler.push`, `Assembler.finish` — one record, and the end of the input.
* `reconstructCrossings` — a whole list of records.

The stack of open crossings is a list with the innermost crossing first.
-/

namespace Boundarylog

/-- A maximal group of values with one label and one role. -/
structure ValueRun where
  label : Text
  role : Role
  values : List RawValue
  deriving DecidableEq, Repr

/-- A crossing whose start has been seen but not its end. -/
structure OpenCrossing where
  /-- Its index among the recovered crossings. -/
  idx : Nat
  label : Text
  deriving DecidableEq, Repr

/-- Why records could not be assembled into crossings. -/
inductive AssemblyError where
  | argRunUnmatched (label : Text)
  | retRunUnmatched (label : Text)
  | unknownFunction (id seen : Nat)
  | unknownVariable (id seen : Nat)
  | badValue (name : Text) (e : Json.UnmarshalError)
  | slotOrder (name : Text) (slot seen : Nat)
  | returnUnopened
  | returnClosesImport (c : Crossing)
  | markersNotNested (index : UInt32) (innermost : Option Crossing)
  | hostState (e : HostStateError)
  | unbalanced (opened : List Crossing)
  deriving DecidableEq, Repr

structure Assembler where
  functions : List FunctionRecord := []
  varNames : List Text := []
  /-- Every crossing recovered so far, in call order. -/
  crossings : List Crossing := []
  /-- The open crossings, innermost first. -/
  stack : List OpenCrossing := []
  pending : Option ValueRun := none
  /-- Where the group being assembled begins. -/
  groupStart : Nat := 0
  /-- The exclusive end of each completed group. -/
  groupEnds : List Nat := []
  /-- An import-labelled realm marker has been seen. -/
  sawImportMarker : Bool := false
  hostState : Option HostState := none
  deriving DecidableEq, Repr

namespace Assembler

/-! ### Primitive updates -/

/-- Append a crossing without opening it. -/
def append (a : Assembler) (c : Crossing) : Assembler := { a with crossings := a.crossings ++ [c] }

/-- Append a crossing and open it. -/
def openNew (a : Assembler) (c : Crossing) (label : Text) : Assembler :=
  { a with
    crossings := a.crossings ++ [c]
    stack := ⟨a.crossings.length, label⟩ :: a.stack }

/-- Change the crossing at an index. -/
def update (a : Assembler) (idx : Nat) (f : Crossing → Crossing) : Assembler :=
  { a with crossings := a.crossings.modify idx f }

/-- The innermost open crossing. -/
def top (a : Assembler) : Option (OpenCrossing × Crossing) :=
  match a.stack with
  | [] => none
  | o :: _ => (a.crossings[o.idx]?).map fun c => (o, c)

/-- Close the innermost open crossing. -/
def pop (a : Assembler) : Assembler := { a with stack := a.stack.tail }

/-! ### Closing runs and crossings -/

/-- Pop open import crossings up to one labelled `keep`. A crossing bracketed by markers
stays unless `force`. -/
def closeDangling (crossings : List Crossing) (keep : Text) (force : Bool) :
    List OpenCrossing → List OpenCrossing
  | [] => []
  | o :: rest =>
    match crossings[o.idx]? with
    | none => o :: rest
    | some c =>
      if c.kind ≠ .import then o :: rest
      else if o.label = keep then o :: rest
      else if c.markerBracketed ∧ ¬ force then o :: rest
      else closeDangling crossings keep force rest

def closeDanglingImports (a : Assembler) (keep : Text) (force : Bool) : Assembler :=
  { a with stack := closeDangling a.crossings keep force a.stack }

/-- An argument run opens an import crossing, or fills in the export just called. -/
def applyArgs (a : Assembler) (run : ValueRun) : Except AssemblyError Assembler :=
  match parseImportLabel run.label with
  | some index =>
    .ok (a.openNew
      { seq := a.crossings.length, depth := a.stack.length, kind := .import, index
        args := run.values }
      run.label)
  | none =>
    match a.stack with
    | [] => .error (.argRunUnmatched run.label)
    | o :: _ =>
      if o.label ≠ run.label then .error (.argRunUnmatched run.label)
      else .ok (a.update o.idx fun c => { c with args := run.values })

/-- A result run for which no crossing is open: an import without arguments leaves no
other trace. -/
def applyLoneResults (a : Assembler) (run : ValueRun) : Except AssemblyError Assembler :=
  match parseImportLabel run.label with
  | some index =>
    .ok (a.append
      { seq := a.crossings.length, depth := a.stack.length, kind := .import, index
        results := run.values, hasResults := true })
  | none => .error (.retRunUnmatched run.label)

/-- A result run completes the innermost open crossing of its label. An import without
markers ends with it. -/
def applyResults (a : Assembler) (run : ValueRun) : Except AssemblyError Assembler :=
  match a.top with
  | none => a.applyLoneResults run
  | some (o, c) =>
    if o.label ≠ run.label then a.applyLoneResults run
    else
      let a' := a.update o.idx fun c => { c with results := run.values, hasResults := true }
      if (parseImportLabel run.label).isSome ∧ ¬ c.markerBracketed then .ok a'.pop else .ok a'

/-- Apply the accumulated run to the stack of open crossings. -/
def closeRun (a : Assembler) : Except AssemblyError Assembler :=
  match a.pending with
  | none => .ok a
  | some run =>
    let a := { a with pending := none }
    match run.role with
    | .arg => (a.closeDanglingImports [] false).applyArgs run
    | .ret => (a.closeDanglingImports run.label false).applyResults run

/-! ### Records -/

def pushFunction (a : Assembler) (f : FunctionRecord) : Except AssemblyError Assembler := do
  let a ← a.closeRun
  return { a with functions := a.functions ++ [f] }

def pushVariableName (a : Assembler) (name : Text) : Assembler :=
  { a with varNames := a.varNames ++ [name] }

/-- Does a binding start a new run? Its label or role changed, or its slot restarted. -/
def startsRun (run : ValueRun) (b : Binding) : Bool :=
  run.label ≠ b.label ∨ run.role ≠ b.role ∨ (b.slot = 0 ∧ run.values ≠ [])

/-- Close the run in flight if the binding does not continue it. -/
def closeRunBefore (a : Assembler) (b : Binding) : Except AssemblyError Assembler :=
  if a.pending.any fun run => startsRun run b then a.closeRun else .ok a

/-- Append a value to the run in flight, a new one if there is none. -/
def extendRun (a : Assembler) (name : Text) (b : Binding) (v : RawValue) :
    Except AssemblyError Assembler :=
  let run := a.pending.getD ⟨b.label, b.role, []⟩
  if b.slot ≠ run.values.length then .error (.slotOrder name b.slot run.values.length)
  else .ok { a with pending := some { run with values := run.values ++ [v] } }

def pushValue (a : Assembler) (v : ValueRecord) : Except AssemblyError Assembler :=
  match a.varNames[v.variableId]? with
  | none => .error (.unknownVariable v.variableId a.varNames.length)
  | some name =>
    match parseBindingName name with
    -- a binding of some other producer delimits the run and is otherwise ignored
    | none => a.closeRun
    | some b =>
      match unmarshalRaw OnDiskValue.into {} v.value with
      | .error e => .error (.badValue name e)
      | .ok odv => do
        let a ← a.closeRunBefore b
        a.extendRun name b odv.raw

def pushCall (a : Assembler) (call : CallRecord) : Except AssemblyError Assembler := do
  let a ← a.closeRun
  match a.functions[call.functionId]? with
  | none => .error (.unknownFunction call.functionId a.functions.length)
  | some f =>
    return a.openNew
      { seq := a.crossings.length, depth := a.stack.length, kind := .export, name := f.name }
      f.name

/-- The crossing an entering marker names. An argument run flushed just before has already
opened it; the marker then adopts that crossing. -/
def openMarkedImport (a : Assembler) (index : UInt32) : Assembler :=
  let fresh := a.openNew
    { seq := a.crossings.length, depth := a.stack.length, kind := .import, index
      markerBracketed := true }
    (importLabel index)
  match a.top with
  | none => fresh
  | some (o, c) =>
    if c.kind = .import ∧ c.index = index ∧ ¬ c.markerBracketed then
      a.update o.idx fun c => { c with markerBracketed := true }
    else fresh

def closeMarkedImport (a : Assembler) (index : UInt32) : Except AssemblyError Assembler :=
  match a.top with
  | none => .error (.markersNotNested index none)
  | some (_, c) =>
    if c.kind = .import ∧ c.index = index ∧ c.markerBracketed then .ok a.pop
    else .error (.markersNotNested index (some c))

/-- What a realm marker does. Only import edges carry structure. -/
def pushMarker (a : Assembler) (m : RealmMarker) : Except AssemblyError Assembler :=
  if m.kind ≠ .import then .ok a
  else
    let a := { a with sawImportMarker := true }
    if m.enter then .ok (a.openMarkedImport m.index) else a.closeMarkedImport m.index

def pushEvent (a : Assembler) (ev : Json.Value) : Except AssemblyError Assembler := do
  let a ← a.closeRun
  match parseHostStateMarker ev with
  | .error e => .error (.hostState e)
  | .ok (some m) =>
    match foldHostStateMarker a.hostState m with
    | .error e => .error (.hostState e)
    | .ok state => return { a with hostState := some state }
  | .ok none =>
    match parseRealmMarker ev with
    | none => return a
    | some m => a.pushMarker m

def pushReturn (a : Assembler) : Except AssemblyError Assembler := do
  let a ← a.closeRun
  let a := a.closeDanglingImports [] false
  match a.top with
  | none => .error .returnUnopened
  | some (_, c) => if c.kind ≠ .export then .error (.returnClosesImport c) else return a.pop

/-- The effect of one record, before group boundaries are noted. The first field that is
set decides the record's kind. -/
def pushRecord (a : Assembler) (ev : TraceEvent) : Except AssemblyError Assembler :=
  match ev with
  | { function := some f, .. } => a.pushFunction f
  | { variableName := some name, .. } => .ok (a.pushVariableName name)
  | { value := some v, .. } => a.pushValue v
  | { call := some call, .. } => a.pushCall call
  | { event := some e, .. } => a.pushEvent e
  | { returned := some _, .. } => a.pushReturn
  | { path, step, .. } => if path.isSome ∨ step.isSome then a.closeRun else .ok a

/-- Record a completed group when nothing is open and no run is in flight. -/
def noteGroupBoundary (a : Assembler) : Assembler :=
  if a.stack ≠ [] ∨ a.pending ≠ none ∨ a.crossings.length ≤ a.groupStart then a
  else
    { a with
      groupEnds := a.groupEnds ++ [a.crossings.length]
      groupStart := a.crossings.length }

/-- Feed one record. -/
def push (a : Assembler) (ev : TraceEvent) : Except AssemblyError Assembler :=
  (a.pushRecord ev).map noteGroupBoundary

/-- Close the assembler at the end of the input. Imports still open are cut short; an
export still open is an unbalanced recording. -/
def finish (a : Assembler) : Except AssemblyError Assembler := do
  let a ← a.closeRun
  let a := a.closeDanglingImports [] true
  if a.stack ≠ [] then
    throw (.unbalanced (a.stack.reverse.filterMap fun o => a.crossings[o.idx]?))
  return a.noteGroupBoundary

/-! ### Groups -/

def groups (a : Assembler) : Nat := a.groupEnds.length

/-- The crossings of the `i`-th completed group. -/
def group (a : Assembler) (i : Nat) : List Crossing :=
  let start := if i = 0 then 0 else a.groupEnds.getD (i - 1) 0
  (a.crossings.take (a.groupEnds.getD i 0)).drop start

def openCrossings (a : Assembler) : Nat := a.stack.length

end Assembler

/-- Recover every crossing from a whole list of records, the marker witness and the host
state the records carried. -/
def reconstructCrossings (events : List TraceEvent) :
    Except AssemblyError (List Crossing × Bool × Option HostState) := do
  let a ← Fallible.feed Assembler.push {} events
  let a ← a.finish
  return (a.crossings, a.sawImportMarker, a.hostState)

end Boundarylog
