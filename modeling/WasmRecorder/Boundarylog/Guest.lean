import WasmRecorder.Boundarylog.Provider
import WasmRecorder.Lib.Interaction

/-!
# The guest module

What the replay knows of the module it drives. A guest is a deterministic machine: an
instantiation or an exported call starts it in a configuration, from which it runs, calls
its imports and returns or traps. The memories and globals it imports are the providers'
own, so they travel with every call it makes and with every answer it gets.

* `Guest` — the machine; `Script.guest` — a module that follows a script.
* `ImportPlan`, `planImports` — the resolved signatures of its imports, checked against the
  instrumenter's manifest when there is one.
-/

namespace Boundarylog

/-! ### Interface -/

structure FunctionType where
  params : List ValueType
  results : List ValueType
  deriving DecidableEq, Repr

structure ImportedFunction where
  moduleName : Text
  name : Text
  type : FunctionType
  deriving DecidableEq, Repr

/-- The compiled module: its function imports in index order, its function exports by name
and the memories it imports. -/
structure Compiled where
  importedFunctions : List ImportedFunction
  exportedFunctions : List (Text × FunctionType)
  importedMemories : List (Text × Text) := []
  /-- The binary format counts imports in a `u32`. -/
  imports_lt : importedFunctions.length < 2 ^ 32

/-- The signature of a function whose types can all cross a recorded boundary. -/
def signatureOf (t : FunctionType) : Option Signature :=
  match t.params.mapM scalarTypeOf, t.results.mapM scalarTypeOf with
  | some params, some results => some ⟨params, results⟩
  | _, _ => none

theorem length_of_mapM {α β : Type} {f : α → Option β} {l : List α} {l' : List β}
    (h : l.mapM f = some l') : l'.length = l.length := by
  induction l generalizing l' with
  | nil =>
    rw [List.mapM_nil] at h
    cases h
    rfl
  | cons x xs ih =>
    rw [List.mapM_cons] at h
    cases hx : f x with
    | none => rw [hx] at h; cases h
    | some y =>
      rw [hx] at h
      cases hxs : xs.mapM f with
      | none => simp [hxs] at h
      | some ys =>
        simp only [hxs, Option.bind_eq_bind, Option.bind_some, Option.pure_def,
          Option.some.injEq] at h
        rw [← h, List.length_cons, List.length_cons, ih hxs]

theorem signatureOf_length {t : FunctionType} {sig : Signature} (h : signatureOf t = some sig) :
    sig.params.length = t.params.length ∧ sig.results.length = t.results.length := by
  rw [signatureOf] at h
  split at h
  · next params results hp hr =>
    cases h
    exact ⟨length_of_mapM hp, length_of_mapM hr⟩
  · cases h

/-! ### The machine -/

/-- A call of an imported function: its index, the argument words, and the imported state
as the guest leaves it. -/
structure Request where
  index : Nat
  args : List UInt64
  world : World

/-- What the host hands back. -/
structure Answer where
  results : List UInt64
  world : World

/-- The state of an instance: what it owns and what it imports. -/
structure State (σ : Type) where
  own : σ
  world : World

inductive Halt (σ : Type) where
  | returned (results : List UInt64) (state : State σ)
  | trapped

/-- A module as a deterministic machine with private state `σ` and configurations `κ`. -/
structure Guest (σ κ : Type) where
  compiled : Compiled
  /-- Instantiate against the providers. A start function runs here. -/
  instantiate : World → κ
  call : State σ → Text → List UInt64 → κ
  next : κ → Interaction.Step κ Request Answer (Halt σ)
  /-- The module was validated: it calls the functions it imports at their arity. -/
  request_typed : ∀ c q resume, next c = .request q resume →
    ∃ f, compiled.importedFunctions[q.index]? = some f ∧ q.args.length = f.type.params.length

/-! ### Scripted guests -/

/-- A request of a validated module with the given interface. -/
def TypedRequest (compiled : Compiled) : Type :=
  { q : Request // ∃ f, compiled.importedFunctions[q.index]? = some f ∧
    q.args.length = f.type.params.length }

/-- What a scripted guest does in one exported call: the import calls it makes, the values it
returns and the imported state it leaves. -/
structure ScriptedCall (compiled : Compiled) where
  requests : List (TypedRequest compiled)
  results : List UInt64
  world : World := []

/-- A module whose behaviour is written down in advance. -/
structure Script (compiled : Compiled) where
  startup : List (TypedRequest compiled) := []
  world : World := []
  calls : List (ScriptedCall compiled)

/-- The machine that follows a script, whatever it is answered. Its own state is the number of
exported calls made so far; past the end of the script it traps. -/
def Script.guest {compiled : Compiled} (s : Script compiled) :
    Guest Nat (List (TypedRequest compiled) × Halt Nat) where
  compiled := compiled
  instantiate := fun _ => (s.startup, .returned [] ⟨0, s.world⟩)
  call := fun st _ _ =>
    match s.calls[st.own]? with
    | some c => (c.requests, .returned c.results ⟨st.own + 1, c.world⟩)
    | none => ([], .trapped)
  next := fun
    | ([], halt) => .halt halt
    | (q :: qs, halt) => .request q.1 fun _ => (qs, halt)
  request_typed := by
    rintro ⟨qs, halt⟩ q resume h
    cases qs with
    | nil => cases h
    | cons q' qs =>
      cases h
      exact q'.2

/-! ### The manifest -/

structure ManifestBoundary where
  fnKind : Nat
  fnIndex : UInt32
  name : Text := []
  params : List Text := []
  results : List Text := []
  unsupportedType : Text := []
  deriving DecidableEq, Repr

def funcKindImport : Nat := 0

def funcKindExport : Nat := 1

/-- The instrumenter's sidecar. -/
structure Manifest where
  boundaries : List ManifestBoundary
  deriving DecidableEq, Repr

def ManifestBoundary.signature (b : ManifestBoundary) : Option Signature :=
  if b.unsupportedType ≠ [] then none
  else match b.params.mapM parseScalarType, b.results.mapM parseScalarType with
    | some params, some results => some ⟨params, results⟩
    | _, _ => none

def Manifest.boundary (m : Manifest) (fnKind : Nat) (fnIndex : UInt32) :
    Option ManifestBoundary :=
  m.boundaries.find? fun b => b.fnKind = fnKind ∧ b.fnIndex = fnIndex

def Manifest.exportBoundaryByName (m : Manifest) (name : Text) : Option ManifestBoundary :=
  if name = [] then none
  else m.boundaries.find? fun b => b.fnKind = funcKindExport ∧ b.name = name

/-! ### Import plans -/

/-- Everything the replay needs about one imported function. -/
structure ImportPlan where
  index : UInt32
  moduleName : Text
  name : Text
  sig : Signature
  deriving DecidableEq, Repr

/-- Why an import cannot be planned. -/
inductive PlanError where
  /-- The instrumented module was passed instead of the original. -/
  | instrumented (name : Text)
  | unsupportedType (moduleName name : Text)
  | manifestBoundary (index : UInt32)
  | manifestSignature (index : UInt32)
  | manifestName (index : UInt32)
  deriving DecidableEq, Repr

def hookModuleName : Text := "__codetracer".toList

/-- Check a plan against the manifest's entry for it. -/
def checkPlan (manifest : Option Manifest) (plan : ImportPlan) : Except PlanError Unit :=
  match manifest.bind fun m => m.boundary funcKindImport plan.index with
  | none => .ok ()
  | some b =>
    match b.signature with
    | none => .error (.manifestBoundary plan.index)
    | some msig =>
      if msig ≠ plan.sig then .error (.manifestSignature plan.index)
      else if b.name ≠ [] ∧ b.name ≠ plan.name then .error (.manifestName plan.index)
      else .ok ()

def planImport (manifest : Option Manifest) (i : Nat) (f : ImportedFunction) :
    Except PlanError ImportPlan :=
  if f.moduleName = hookModuleName then .error (.instrumented f.name)
  else match signatureOf f.type with
    | none => .error (.unsupportedType f.moduleName f.name)
    | some sig =>
      let plan : ImportPlan := ⟨UInt32.ofNat i, f.moduleName, f.name, sig⟩
      (checkPlan manifest plan).map fun _ => plan

/-- The plans of the imports from index `i` on. -/
def planImportsFrom (manifest : Option Manifest) : Nat → List ImportedFunction →
    Except PlanError (List ImportPlan)
  | _, [] => .ok []
  | i, f :: fs =>
    match planImport manifest i f with
    | .error e => .error e
    | .ok plan =>
      match planImportsFrom manifest (i + 1) fs with
      | .error e => .error e
      | .ok plans => .ok (plan :: plans)

/-- Resolve the signature of every import. -/
def planImports (compiled : Compiled) (manifest : Option Manifest) :
    Except PlanError (List ImportPlan) :=
  planImportsFrom manifest 0 compiled.importedFunctions

theorem planImport_ok {manifest : Option Manifest} {i : Nat} {f : ImportedFunction}
    {plan : ImportPlan} (h : planImport manifest i f = .ok plan) :
    plan.index = UInt32.ofNat i ∧ plan.moduleName = f.moduleName ∧ plan.name = f.name ∧
      signatureOf f.type = some plan.sig := by
  rw [planImport] at h
  split_ifs at h
  split at h
  · cases h
  · next sig hsig =>
    cases hcheck : checkPlan manifest ⟨UInt32.ofNat i, f.moduleName, f.name, sig⟩ with
    | error e => simp [hcheck, Except.map] at h
    | ok u =>
      simp only [hcheck, Except.map, Except.ok.injEq] at h
      subst h
      exact ⟨rfl, rfl, rfl, hsig⟩

theorem planImportsFrom_getElem? {manifest : Option Manifest} {i : Nat}
    {fs : List ImportedFunction} {plans : List ImportPlan}
    (h : planImportsFrom manifest i fs = .ok plans) {j : Nat} {f : ImportedFunction}
    (hf : fs[j]? = some f) :
    ∃ plan, plans[j]? = some plan ∧ planImport manifest (i + j) f = .ok plan := by
  induction fs generalizing i j plans with
  | nil => simp at hf
  | cons f' fs ih =>
    rw [planImportsFrom] at h
    split at h
    · cases h
    · next plan hplan =>
      split at h
      · cases h
      · next plans' hplans =>
        cases h
        cases j with
        | zero =>
          cases hf
          exact ⟨plan, rfl, hplan⟩
        | succ j =>
          obtain ⟨plan', hget, hplan'⟩ := ih hplans hf
          exact ⟨plan', hget, by rw [← hplan']; congr 1; omega⟩

theorem planImports_getElem? {compiled : Compiled} {manifest : Option Manifest}
    {plans : List ImportPlan} (h : planImports compiled manifest = .ok plans) {i : Nat}
    {f : ImportedFunction} (hf : compiled.importedFunctions[i]? = some f) :
    ∃ plan, plans[i]? = some plan ∧ plan.index.toNat = i ∧ signatureOf f.type = some plan.sig := by
  obtain ⟨plan, hget, hplan⟩ := planImportsFrom_getElem? h hf
  obtain ⟨hindex, -, -, hsig⟩ := planImport_ok hplan
  refine ⟨plan, hget, ?_, hsig⟩
  have hlt : i < 2 ^ 32 := (List.getElem?_eq_some_iff.mp hf).1.trans compiled.imports_lt
  rw [hindex, Nat.zero_add]
  exact UInt32.toNat_ofNat_of_lt' hlt

end Boundarylog
