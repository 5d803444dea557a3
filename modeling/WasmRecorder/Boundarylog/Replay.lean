import WasmRecorder.Boundarylog.Guest
import WasmRecorder.Boundarylog.LoadRecording

/-!
# Replaying a recording

The replay driver re-executes a module against its recording. The module's imports are
served by `serviceImport`, which checks each call against the crossing at the cursor and
feeds the recorded results back. A divergence seen there is only stashed in the replayer,
because a stub cannot stop the module; `callExport` reports it once the call is over.

* `driveCalls` — the loop over exported calls with the quiescent-point hook.
* `replay` — the batch driver.

A run of the guest is bounded by fuel, the number of machine steps each call may take. A
result `none` means that some call had not come to an end within it, so "`replay` returns"
is "for some fuel". What was driven is logged in `Progress`.
-/

namespace Boundarylog

open Interaction

/-! ### Errors and results -/

/-- The ways in which a module's behaviour can differ from its recording. -/
inductive Divergence where
  /-- An import call after the last recorded crossing. -/
  | importCall (index : UInt32) (recorded : Nat)
  | crossingKind (c : Crossing) (index : UInt32)
  | importIndex (c : Crossing) (index : UInt32)
  | importArgument (c : Crossing) (slot : Nat)
  | importResult (c : Crossing)
  | crossingOrder (c : Crossing) (cursor : Nat)
  | exportArity (c : Crossing)
  | exportResult (c : Crossing)
  | returnArity (c : Crossing) (recorded actual : Nat)
  | returnValue (c : Crossing) (slot : Nat)
  | crossingCount (consumed recorded : Nat)
  deriving DecidableEq, Repr

inductive ReplayError where
  | divergence (d : Divergence)
  | plan (e : PlanError)
  /-- Recorded values that do not fit the signature. -/
  | badValues (c : Crossing) (e : ValueError)
  | exportUnnamed (c : Crossing)
  | exportMissing (c : Crossing)
  | exportType (c : Crossing)
  | exportManifest (c : Crossing)
  | nestedExports (cs : List Crossing)
  | memoryUndescribed (moduleName name : Text)
  | duplicateImport (moduleName name : Text)
  | provider (e : ProviderError)
  | mutation (c : Crossing) (e : ProviderError)
  | instantiation
  | trapped (c : Crossing)
  | range (fromPoint toPoint : Int)
  | resumeMissing (point : Int)
  | resume (point : Nat) (e : Text)
  | hook (point : Nat) (e : Text)
  deriving DecidableEq, Repr

structure Result where
  exportCalls : Nat := 0
  importCalls : Nat := 0
  uncheckedImportCalls : Nat := 0
  fromPoint : Nat := 0
  toPoint : Nat := 0
  deriving DecidableEq, Repr

/-- What a replay is configured with. The hook observes the instance and may abort the
replay; `resume` puts a fresh instance into the state it had at `fromPoint`. -/
structure Options (σ : Type) where
  manifest : Option Manifest := none
  atQuiescentPoint : Option (Nat → State σ → Except Text Unit) := none
  fromPoint : Int := 0
  toPoint : Int := 0
  resume : Option (State σ → Except Text (State σ)) := none

/-- The mutable state of a replay. -/
structure Replayer where
  /-- The next crossing the recording expects. -/
  cursor : Nat := 0
  /-- The first divergence a stub saw. -/
  err : Option ReplayError := none
  result : Result := {}
  /-- What a strict reading would have said of the first call that could not be classified
  when it was made. Only the streaming driver sets it. -/
  deferredValueless : Option (Option ReplayError) := none
  deriving DecidableEq, Repr

/-! ### Imports -/

/-- The first slot in which two tuples differ. -/
def firstMismatch (want got : List Value) : Option Nat :=
  (want.zip got).findIdx? fun p => p.1 ≠ p.2

theorem firstMismatch_eq_none {want got : List Value} (hlen : want.length = got.length) :
    firstMismatch want got = none ↔ want = got := by
  induction want generalizing got with
  | nil =>
    cases got with
    | nil => simp [firstMismatch]
    | cons v vs => cases hlen
  | cons w ws ih =>
    cases got with
    | nil => cases hlen
    | cons v vs =>
      have ih' := ih (Nat.succ.inj hlen)
      rw [firstMismatch, List.findIdx?_eq_none_iff] at ih' ⊢
      rw [List.zip_cons_cons, List.forall_mem_cons, ih', List.cons.injEq]
      simp

/-- Is the crossing at the cursor the import call just made? Nothing is consumed. -/
def matchImportCrossing (r : Recording) (cursor : Nat) (plan : ImportPlan) (args : List UInt64) :
    Except ReplayError Crossing :=
  match r.crossings[cursor]? with
  | none => .error (.divergence (.importCall plan.index r.crossings.length))
  | some c =>
    if c.kind ≠ .import then .error (.divergence (.crossingKind c plan.index))
    else if c.index ≠ plan.index then .error (.divergence (.importIndex c plan.index))
    else match decodeTuple "argument".toList c.args plan.sig.params with
      | .error e => .error (.badValues c e)
      | .ok wantArgs =>
        match firstMismatch wantArgs (plan.sig.params.zipWith fromWazero args) with
        | some i => .error (.divergence (.importArgument c i))
        | none => .ok c

/-- A stub that gives up leaves zeros for the guest to read. -/
def zeroStack (plan : ImportPlan) (w : World) : Answer := ⟨plan.sig.results.map fun _ => 0, w⟩

/-- A call of an import without values while the recording's markers do not name imports.
The batch driver counts it. The streaming driver cannot know yet whether that is right, so
it also stashes what the strict reading says: an error, or that it matches a crossing. -/
def serviceUnwitnessedValuelessImport (deferred : Bool) (r : Recording) (plan : ImportPlan)
    (s : Replayer) : Replayer :=
  let s' := if deferred ∧ s.deferredValueless = none then
      match matchImportCrossing r s.cursor plan [] with
      | .error e => { s with deferredValueless := some (some e) }
      | .ok _ => { s with deferredValueless := some none }
    else s
  { s' with result := { s'.result with uncheckedImportCalls := s'.result.uncheckedImportCalls + 1 } }

/-- Feed the recorded results of a matched crossing back, after the host's recorded writes. -/
def answerImport (r : Recording) (plan : ImportPlan) (c : Crossing) (s : Replayer) (w : World) :
    Replayer × Answer :=
  match applyMutations r.hostState c.seq w with
  | (w', some e) => ({ s with err := some (.mutation c e) }, zeroStack plan w')
  | (w', none) =>
    if plan.sig.results ≠ [] ∧ ¬ c.hasResults then
      ({ s with err := some (.divergence (.importResult c)) }, zeroStack plan w')
    else match decodeTuple "result".toList c.results plan.sig.results with
      | .error e => ({ s with err := some (.badValues c e) }, zeroStack plan w')
      | .ok results =>
        ({ s with
            cursor := s.cursor + 1
            result := { s.result with importCalls := s.result.importCalls + 1 } },
          ⟨results.map Value.bits, w'⟩)

/-- Nothing on disk can be matched to a call of this import: it has no values and the
recording's markers do not name imports. -/
def unwitnessed (r : Recording) (plan : ImportPlan) : Bool :=
  plan.sig.isEmpty && !r.markersIdentifyImports

/-- The stub of every import: check the recorded arguments and return the recorded
results. -/
def serviceImport (plans : List ImportPlan) (deferred : Bool) (r : Recording) (s : Replayer)
    (q : Request) : Replayer × Answer :=
  match plans[q.index]? with
  | none => (s, ⟨[], q.world⟩)
  | some plan =>
    if s.err ≠ none then (s, zeroStack plan q.world)
    else if unwitnessed r plan then
      (serviceUnwitnessedValuelessImport deferred r plan s, ⟨[], q.world⟩)
    else match matchImportCrossing r s.cursor plan q.args with
      | .error e => ({ s with err := some e }, zeroStack plan q.world)
      | .ok c => answerImport r plan c s q.world

/-! ### Preparation -/

/-- Everything a replay keeps fixed while it drives a module. -/
structure Driver (σ κ : Type) where
  guest : Guest σ κ
  plans : List ImportPlan
  /-- The streaming driver defers the classification of calls without values. -/
  deferred : Bool
  manifest : Option Manifest
  hook : Option (Nat → State σ → Except Text Unit)

/-- One exported call as it was driven. -/
structure CallLog where
  crossing : Crossing
  args : List UInt64
  /-- The import calls made during it, with what was handed back. -/
  imports : List (Request × Answer)
  results : List UInt64
  /-- The crossing expected next when it returned. -/
  cursor : Nat

/-- The state of a replay between two calls, with the log of what was driven. -/
structure Progress (σ : Type) where
  replayer : Replayer
  state : State σ
  /-- The import calls made during instantiation. -/
  startup : List (Request × Answer)
  calls : List CallLog := []
  /-- The quiescent points passed, with the state the hook was shown there. -/
  points : List (Nat × State σ) := []

/-- The first imported memory the host state does not describe. -/
def undescribedImportedMemory (compiled : Compiled) (state : Option HostState) :
    Option (Text × Text) :=
  compiled.importedMemories.find? fun m =>
    ¬ ((state.map HostState.memoryList).getD []).any fun have_ =>
      have_.moduleName = m.1 ∧ have_.name = m.2

/-- A `(module, name)` pair imported more than once. -/
def duplicateImport (plans : List ImportPlan) : Option ImportPlan :=
  plans.find? fun p =>
    1 < plans.countP fun p' => p'.moduleName = p.moduleName ∧ p'.name = p.name

/-- Satisfy the guest's imports. -/
def instantiateHostModules (plans : List ImportPlan) (state : Option HostState) :
    Except ReplayError World :=
  match duplicateImport plans with
  | some p => .error (.duplicateImport p.moduleName p.name)
  | none =>
    match World.build state (plans.map fun p => (p.moduleName, p.name)) with
    | .error e => .error (.provider e)
    | .ok w => .ok w

namespace Driver

variable {σ κ : Type}

/-- Serve the guest's requests from a recording. -/
abbrev serve (d : Driver σ κ) (r : Recording) : Replayer → Request → Replayer × Answer :=
  serviceImport d.plans d.deferred r

/-- Run the guest from a configuration. -/
def run (d : Driver σ κ) (fuel : Nat) (r : Recording) (s : Replayer) (c : κ) :
    Option (Replayer × List (Request × Answer) × Halt σ) :=
  drive d.guest.next (d.serve r) fuel s c

/-- Write the initial memory contents and enter quiescence. -/
def settle (r : Recording) (s : Replayer) (startup : List (Request × Answer)) (st : State σ) :
    Except ReplayError (Progress σ) :=
  match applyInitialMemory r.hostState st.world with
  | (_, some e) => .error (.provider e)
  | (w, none) => .ok { replayer := s, state := { st with world := w }, startup }

/-- Everything that precedes the first driven call: satisfy the imports, instantiate, write
the initial memory contents. -/
def prepare (d : Driver σ κ) (fuel : Nat) (r : Recording) :
    Option (Except ReplayError (Progress σ)) :=
  match undescribedImportedMemory d.guest.compiled r.hostState with
  | some m => some (.error (.memoryUndescribed m.1 m.2))
  | none =>
    match instantiateHostModules d.plans r.hostState with
    | .error e => some (.error e)
    | .ok w =>
      match d.run fuel r {} (d.guest.instantiate w) with
      | none => none
      | some (_, _, .trapped) => some (.error .instantiation)
      | some (s, tr, .returned _ st) => some (settle r s tr st)

/-! ### Exported calls -/

/-- Validate one recorded exported call against the module. -/
def checkExportCrossing (d : Driver σ κ) (c : Crossing) : Except ReplayError Unit :=
  if c.name = [] then .error (.exportUnnamed c)
  else match d.guest.compiled.exportedFunctions.lookup c.name with
    | none => .error (.exportMissing c)
    | some t =>
      match signatureOf t with
      | none => .error (.exportType c)
      | some sig =>
        if (d.manifest.bind fun m => m.exportBoundaryByName c.name).any
            fun b => b.signature ≠ some sig then .error (.exportManifest c)
        else if c.args.length ≠ sig.params.length then .error (.divergence (.exportArity c))
        else if sig.results ≠ [] ∧ ¬ c.hasResults then .error (.divergence (.exportResult c))
        else .ok ()

/-- Compare a return value with the recording. -/
def checkResults (c : Crossing) (sig : Signature) (got : List UInt64) : Except ReplayError Unit :=
  match decodeTuple "result".toList c.results sig.results with
  | .error e => .error (.badValues c e)
  | .ok want =>
    if got.length ≠ want.length then
      .error (.divergence (.returnArity c want.length got.length))
    else match firstMismatch want (sig.results.zipWith fromWazero got) with
      | some i => .error (.divergence (.returnValue c i))
      | none => .ok ()

/-- What becomes of a call once the guest has come to a halt. An error stashed by a stub is
the cause of whatever the call did, so it comes first. -/
def finishCall (c : Crossing) (sig : Signature) (args : List UInt64) (p : Progress σ)
    (s : Replayer) (tr : List (Request × Answer)) (halt : Halt σ) :
    Except ReplayError (Progress σ) :=
  match s.err with
  | some e => .error e
  | none =>
    match halt with
    | .trapped => .error (.trapped c)
    | .returned got st =>
      match checkResults c sig got with
      | .error e => .error e
      | .ok () =>
        .ok { p with replayer := s, state := st, calls := p.calls ++ [⟨c, args, tr, got, s.cursor⟩] }

/-- The replayer as an exported call is entered. -/
def enterCall (s : Replayer) : Replayer :=
  { s with
    cursor := s.cursor + 1
    result := { s.result with exportCalls := s.result.exportCalls + 1 } }

/-- Invoke one recorded exported call and validate its return value. -/
def callExport (d : Driver σ κ) (fuel : Nat) (r : Recording) (p : Progress σ) (c : Crossing) :
    Option (Except ReplayError (Progress σ)) :=
  if r.crossings.length ≤ p.replayer.cursor ∨ p.replayer.cursor ≠ c.seq then
    some (.error (.divergence (.crossingOrder c p.replayer.cursor)))
  else match d.guest.compiled.exportedFunctions.lookup c.name with
    | none => some (.error (.exportMissing c))
    | some t =>
      match signatureOf t with
      | none => some (.error (.exportType c))
      | some sig =>
        match decodeTuple "argument".toList c.args sig.params with
        | .error e => some (.error (.badValues c e))
        | .ok args =>
          let raw := args.map Value.bits
          match d.run fuel r (enterCall p.replayer) (d.guest.call p.state c.name raw) with
          | none => none
          | some (s, tr, halt) => some (finishCall c sig raw p s tr halt)

/-- Pass a quiescent point: show the instance to the hook, if there is one. -/
def passPoint (d : Driver σ κ) (point : Nat) (p : Progress σ) : Except ReplayError (Progress σ) :=
  match d.hook with
  | none => .ok { p with points := p.points ++ [(point, p.state)] }
  | some h =>
    match h point p.state with
    | .error e => .error (.hook point e)
    | .ok () => .ok { p with points := p.points ++ [(point, p.state)] }

/-- One round of the driver: an exported call, then the quiescent point after it. -/
def driveCall (d : Driver σ κ) (fuel : Nat) (r : Recording) (point : Nat) (p : Progress σ)
    (c : Crossing) : Option (Except ReplayError (Progress σ)) :=
  match d.callExport fuel r p c with
  | none => none
  | some (.error e) => some (.error e)
  | some (.ok p') => some (d.passPoint (point + 1) p')

/-- Drive exported calls in order, from a quiescent point on. -/
def driveCalls (d : Driver σ κ) (fuel : Nat) (r : Recording) :
    Nat → Progress σ → List Crossing → Option (Except ReplayError (Progress σ))
  | _, p, [] => some (.ok p)
  | point, p, c :: cs =>
    match d.driveCall fuel r point p c with
    | none => none
    | some (.error e) => some (.error e)
    | some (.ok p') => driveCalls d fuel r (point + 1) p' cs

end Driver

/-! ### The batch driver -/

variable {σ κ : Type}

/-- Check the range of quiescent points against the recording. Zero as an end point means
the end of the recording. -/
def resolveRange (opts : Options σ) (nExports : Nat) : Except ReplayError (Nat × Nat) :=
  let stop : Int := if opts.toPoint = 0 then nExports else opts.toPoint
  if opts.fromPoint < 0 ∨ (nExports : Int) < opts.fromPoint then
    .error (.range opts.fromPoint stop)
  else if stop < opts.fromPoint ∨ (nExports : Int) < stop then .error (.range opts.fromPoint stop)
  else if 0 < opts.fromPoint ∧ opts.resume.isNone then .error (.resumeMissing opts.fromPoint)
  else .ok (opts.fromPoint.toNat, stop.toNat)

def checkExports (d : Driver σ κ) : List Crossing → Except ReplayError Unit
  | [] => .ok ()
  | c :: cs =>
    match d.checkExportCrossing c with
    | .error e => .error e
    | .ok () => checkExports d cs

def refuseNestedExports (nested : List Crossing) : Except ReplayError Unit :=
  if nested = [] then .ok () else .error (.nestedExports nested)

/-- Move a freshly prepared replay to the quiescent point it starts at. -/
def seek (opts : Options σ) (r : Recording) (start : Nat) (p : Progress σ) :
    Except ReplayError (Progress σ) :=
  if start = 0 then .ok p
  else
    let cursor := match r.topLevelExports[start]? with
      | some c => c.seq
      | none => r.crossings.length
    match opts.resume with
    | none => .error (.resumeMissing start)
    | some resume =>
      match resume p.state with
      | .error e => .error (.resume start e)
      | .ok st => .ok { p with replayer := { p.replayer with cursor }, state := st }

/-- A replay about to drive its first call. -/
structure Launch (σ κ : Type) where
  driver : Driver σ κ
  start : Nat
  stop : Nat
  progress : Progress σ

/-- Choose the range, move to its start and pass that quiescent point. -/
def launchAt (d : Driver σ κ) (opts : Options σ) (r : Recording) (p : Progress σ) :
    Except ReplayError (Launch σ κ) := do
  let (start, stop) ← resolveRange opts r.topLevelExports.length
  let p ← seek opts r start p
  let p ← d.passPoint start p
  return ⟨d, start, stop, p⟩

/-- What the batch driver checks before it instantiates anything. -/
def precheck (guest : Guest σ κ) (opts : Options σ) (r : Recording) :
    Except ReplayError (Driver σ κ) :=
  match planImports guest.compiled opts.manifest with
  | .error e => .error (.plan e)
  | .ok plans => do
    let d : Driver σ κ := ⟨guest, plans, false, opts.manifest, opts.atQuiescentPoint⟩
    checkExports d r.topLevelExports
    refuseNestedExports r.nestedExports
    return d

/-- Everything the batch driver does before the first exported call. -/
def launch (fuel : Nat) (guest : Guest σ κ) (opts : Options σ) (r : Recording) :
    Option (Except ReplayError (Launch σ κ)) :=
  match precheck guest opts r with
  | .error e => some (.error e)
  | .ok d =>
    match d.prepare fuel r with
    | none => none
    | some (.error e) => some (.error e)
    | some (.ok p) => some (launchAt d opts r p)

/-- The end of a replay: over the whole recording every crossing must have been consumed; a
partial range leaves crossings at both ends and is not checked. -/
def endReplay (r : Recording) (start stop : Nat) (p : Progress σ) :
    Except ReplayError (Progress σ) :=
  let p := { p with replayer := { p.replayer with
    result := { p.replayer.result with fromPoint := start, toPoint := stop } } }
  if stop ≠ r.topLevelExports.length ∨ start ≠ 0 then .ok p
  else if p.replayer.cursor ≠ r.crossings.length then
    .error (.divergence (.crossingCount p.replayer.cursor r.crossings.length))
  else .ok p

/-- Re-execute a module against its recording. -/
def replay (fuel : Nat) (guest : Guest σ κ) (opts : Options σ) (r : Recording) :
    Option (Except ReplayError (Progress σ)) :=
  match launch fuel guest opts r with
  | none => none
  | some (.error e) => some (.error e)
  | some (.ok l) =>
    match l.driver.driveCalls fuel r l.start l.progress
        ((r.topLevelExports.drop l.start).take (l.stop - l.start)) with
    | none => none
    | some (.error e) => some (.error e)
    | some (.ok p) => some (endReplay r l.start l.stop p)

end Boundarylog
