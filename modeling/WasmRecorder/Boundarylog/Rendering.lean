import WasmRecorder.Boundarylog.LoadRecording
import WasmRecorder.Lib.Json.Marshal

/-!
# How the producer renders crossings

The browser runtime renders boundary crossings into trace records: an exported call as `Call`
and `Return` around its value runs, an import as its value runs alone, and both with a pair of
realm markers. This file models that renderer, for crossings nested in any way.

* `Builder`, `Forest.render` — the renderer. It writes the record that introduces a function or
  a binding name when it first needs it.
* `Forest.crossings` — what a reader is to recover: the nodes in pre-order.
-/

namespace Boundarylog

open Fallible Json

/-! ### Values on disk -/

/-- A JSON text that is a value record. -/
structure DiskValue where
  json : Json.Value
  decoded : OnDiskValue
  decodes : OnDiskValue.into {} json = .ok decoded

/-- The value as a crossing holds it. -/
def DiskValue.raw (v : DiskValue) : RawValue := v.decoded.raw

/-- A tuple, with as many slots as a machine integer can count. -/
structure Tuple where
  values : List DiskValue := []
  fits : values.length < 2 ^ 63 := by decide

def Tuple.raws (t : Tuple) : List RawValue := t.values.map DiskValue.raw

/-! ### Realm markers -/

/-- Which runtime produced the recording. -/
inductive Vintage where
  | m39
  /-- Older than M39: both edges are spelled as exports. -/
  | legacy
  deriving DecidableEq, Repr

/-- The edge a crossing traverses: an export by its name and its index among the module's
exports, an import by its index. -/
inductive Edge where
  | «export» (name : Text) (index : UInt32)
  | «import» (index : UInt32)
  deriving DecidableEq, Repr

def Edge.kind : Edge → CrossingKind
  | .export _ _ => .export
  | .import _ => .import

def Edge.index : Edge → UInt32
  | .export _ index => index
  | .import index => index

/-- The kind of edge its markers name. -/
def Edge.markedAs (v : Vintage) (e : Edge) : CrossingKind :=
  match v with
  | .m39 => e.kind
  | .legacy => .export

/-- The `show_value` of a marker. -/
def showValue (kind : CrossingKind) (index : UInt32) : Text :=
  match kind with
  | .export => exportMarkerPrefix ++ Strconv.formatUint index.toNat
  | .import => importMarkerPrefix ++ Strconv.formatUint index.toNat

def directionText (enter : Bool) : Text :=
  if enter then markerEnterDirection else markerLeaveDirection

theorem parseShowValue_showValue (kind : CrossingKind) (index : UInt32) :
    parseShowValue (showValue kind index) = some (kind, index) := by
  have hpre : ∀ p : Text, p.isPrefixOf (p ++ Strconv.formatUint index.toNat) = true := fun p =>
    List.isPrefixOf_iff_prefix.mpr (List.prefix_append _ _)
  cases kind with
  | «export» =>
    have hnot : ¬ importMarkerPrefix.isPrefixOf
        (exportMarkerPrefix ++ Strconv.formatUint index.toNat) = true := by
      intro h
      obtain ⟨t, ht⟩ := List.isPrefixOf_iff_prefix.mp h
      -- the two spellings differ at the sixth character
      have htake := congrArg (List.take 6) ht
      rw [List.take_append_of_le_length (by decide), List.take_append_of_le_length (by decide)]
        at htake
      exact absurd htake (by decide)
    rw [parseShowValue, showValue, if_neg hnot, if_pos (hpre _), parseIndexAfter_formatUint]
    rfl
  | «import» =>
    rw [parseShowValue, showValue, if_pos (hpre _), parseIndexAfter_formatUint]
    rfl

theorem parseDirection_directionText (enter : Bool) :
    parseDirection (directionText enter) = some enter := by
  cases enter <;> rfl

theorem boundaryId_agrees {v : Json.Value} {m : MarkerMetadata} {h : HostStateMarker}
    (hm : MarkerMetadata.into {} v = .ok m) (hh : HostStateMarker.into {} v = .ok h) :
    h.boundaryId = m.boundaryId := by
  cases v with
  | null =>
    cases hm
    cases hh
    rfl
  | object ms =>
    have hm' : storeMembers "boundary_id".toList intoString [] ms = .ok m.boundaryId := by
      refine intoFields_head MarkerMetadata.boundaryId (by decide) (fun s v s' hs => ?_) ?_ hm
      · obtain ⟨x, hx, rfl⟩ := map_eq_ok.mp hs
        exact hx
      · simp only [List.forall_mem_cons]
        refine ⟨fun s v s' hs => ?_, fun s v s' hs => ?_, nofun⟩ <;>
          (obtain ⟨x, -, rfl⟩ := map_eq_ok.mp hs; rfl)
    have hh' : storeMembers "boundary_id".toList intoString [] ms = .ok h.boundaryId := by
      refine intoFields_head HostStateMarker.boundaryId (by decide) (fun s v s' hs => ?_) ?_ hh
      · obtain ⟨x, hx, rfl⟩ := map_eq_ok.mp hs
        exact hx
      · simp only [List.forall_mem_cons]
        refine ⟨fun s v s' hs => ?_, fun s v s' hs => ?_, fun s v s' hs => ?_,
          fun s v s' hs => ?_, nofun⟩ <;>
          (obtain ⟨x, -, rfl⟩ := map_eq_ok.mp hs; rfl)
    exact Except.ok.inj (hh'.symm.trans hm')
  | _ => cases hm

/-- A payload that spells a realm marker: a trace-log event whose metadata names the boundary,
the direction and the edge. -/
structure MarkerEvent (kind : CrossingKind) (index : UInt32) (enter : Bool) where
  raw : Json.Value
  record : EventRecord
  decodes : EventRecord.into {} raw = .ok record
  isLogEvent : record.kind = eventKindTraceLogEvent
  spells : unmarshal MarkerMetadata.into {} (encode record.metadata) =
    .ok ⟨jsWasmRealmBoundary, directionText enter, showValue kind index⟩

theorem MarkerEvent.parseRealmMarker {kind : CrossingKind} {index : UInt32} {enter : Bool}
    (m : MarkerEvent kind index enter) :
    parseRealmMarker m.raw = some ⟨kind, index, enter⟩ := by
  rw [Boundarylog.parseRealmMarker, m.decodes]
  dsimp only
  rw [if_neg (not_not_intro m.isLogEvent), m.spells]
  dsimp only
  rw [MarkerMetadata.marker, if_neg (not_not_intro rfl), parseShowValue_showValue,
    parseDirection_directionText]

theorem MarkerEvent.parseHostStateMarker {kind : CrossingKind} {index : UInt32} {enter : Bool}
    (m : MarkerEvent kind index enter) : parseHostStateMarker m.raw = .ok none := by
  rw [Boundarylog.parseHostStateMarker, m.decodes]
  dsimp only
  rw [if_neg (not_not_intro m.isLogEvent)]
  split_ifs
  · have hspells := m.spells
    rw [unmarshal] at hspells ⊢
    cases hparse : parse (encode m.record.metadata) with
    | none => simp [hparse] at hspells
    | some v =>
      rw [hparse] at hspells
      dsimp only at hspells ⊢
      cases hstate : HostStateMarker.into {} v with
      | error e => rfl
      | ok h =>
        have hid : h.boundaryId = jsWasmRealmBoundary := boundaryId_agrees hspells hstate
        dsimp only
        rw [hid, if_pos (by decide)]
  · rfl

/-! ### Crossings to render -/

/-- Where in the source a record points to. -/
structure Site where
  pathId : Nat
  line : Nat
  deriving DecidableEq, Repr

/-- One crossing, with the records that are not determined by it. -/
structure Node (v : Vintage) where
  edge : Edge
  site : Site
  args : Tuple
  results : Tuple
  enter : MarkerEvent (edge.markedAs v) edge.index true
  leave : MarkerEvent (edge.markedAs v) edge.index false

/-- A finite forest: its first tree's root and the crossings inside it, and the other trees. -/
inductive Forest (v : Vintage) where
  | nil
  | cons (root : Node v) (inside rest : Forest v)

variable {v : Vintage}

/-- The label of a crossing's bindings. -/
def Edge.label : Edge → Text
  | .export name _ => name
  | .import index => importLabel index

/-- What is to be recovered of a node at this place. -/
def Node.crossing (n : Node v) (seq depth : Nat) : Crossing where
  seq := seq
  depth := depth
  kind := n.edge.kind
  name := match n.edge with
    | .export name _ => name
    | .import _ => []
  index := match n.edge with
    | .export _ _ => 0
    | .import index => index
  args := n.args.raws
  results := n.results.raws
  hasResults := decide (n.results.raws ≠ [])
  markerBracketed := decide (v = .m39 ∧ n.edge.kind = .import)

namespace Forest

/-- The crossings of a forest in pre-order, numbered from `seq` on. -/
def crossings : Forest v → (seq depth : Nat) → List Crossing
  | .nil, _, _ => []
  | .cons root inside rest, seq, depth =>
    root.crossing seq depth :: inside.crossings (seq + 1) (depth + 1) ++
      rest.crossings (seq + 1 + (inside.crossings (seq + 1) (depth + 1)).length) depth

/-- Every node has a property. -/
def All (P : Node v → Prop) : Forest v → Prop
  | .nil => True
  | .cons root inside rest => P root ∧ inside.All P ∧ rest.All P

/-- Exported calls that make no calls of their own. -/
def Calls : Forest v → Prop
  | .nil => True
  | .cons root inside rest => root.edge.kind = .export ∧ inside = .nil ∧ rest.Calls

/-- Import calls during which the host makes no calls. -/
def ImportCalls : Forest v → Prop
  | .nil => True
  | .cons root inside rest => root.edge.kind = .import ∧ inside = .nil ∧ rest.ImportCalls

/-- Exported calls that make nothing but import calls. -/
def FlatCalls : Forest v → Prop
  | .nil => True
  | .cons root inside rest => root.edge.kind = .export ∧ inside.ImportCalls ∧ rest.FlatCalls

theorem All.mono {P Q : Node v → Prop} (hPQ : ∀ n, P n → Q n) {f : Forest v} (h : f.All P) :
    f.All Q := by
  induction f with
  | nil => trivial
  | cons root inside rest ih₁ ih₂ => exact ⟨hPQ root h.1, ih₁ h.2.1, ih₂ h.2.2⟩

end Forest

/-! ### The renderer -/

/-- The records written so far, and the tables their identifiers point into. -/
structure Builder where
  funcs : List Text := []
  varNames : List Text := []
  events : List TraceEvent := []

namespace Builder

def emit (b : Builder) (ev : TraceEvent) : Builder := { b with events := b.events ++ [ev] }

def step (b : Builder) (site : Site) : Builder :=
  b.emit { step := some (.ofFields [("path_id".toList, .ofInt site.pathId),
    ("line".toList, .ofInt site.line)]) }

local instance lawfulText : LawfulBEq Text := inferInstance

/-- Introduce a function that has not been called before. -/
def introduceFunction (b : Builder) (name : Text) (site : Site) : Builder :=
  if name ∈ b.funcs then b
  else { b.emit { function := some ⟨name, site.pathId, site.line⟩ } with
    funcs := b.funcs ++ [name] }

/-- Introduce a binding name that has not been used before. -/
def introduceName (b : Builder) (name : Text) : Builder :=
  if name ∈ b.varNames then b
  else { b.emit { variableName := some name } with varNames := b.varNames ++ [name] }

def call (b : Builder) (name : Text) : Builder :=
  b.emit { call := some { functionId := b.funcs.idxOf name, args := some [] } }

/-- One slot of a tuple. -/
def value (b : Builder) (label : Text) (role : Role) (slot : Nat) (v : DiskValue) : Builder :=
  let name := bindingName label role slot
  let b := b.introduceName name
  b.emit { value := some { variableId := b.varNames.idxOf name, value := some v.json } }

/-- The slots of a tuple from one slot on. -/
def slots (label : Text) (role : Role) : Nat → List DiskValue → Builder → Builder
  | _, [], b => b
  | slot, v :: vs, b => slots label role (slot + 1) vs (b.value label role slot v)

/-- A tuple: a `Step`, then its slots. An empty one leaves nothing. -/
def values (b : Builder) (site : Site) (label : Text) (role : Role) (t : Tuple) : Builder :=
  if t.values = [] then b else slots label role 0 t.values (b.step site)

def marker (b : Builder) (raw : Json.Value) : Builder := b.emit { event := some raw }

/-- The value a `Return` names: the result if there is exactly one. -/
def returnValue (t : Tuple) : Json.Value :=
  match t.values with
  | [v] => v.json
  | _ => .ofFields [("kind".toList, .ofText "None".toList), ("type_id".toList, .ofInt 0)]

def ret (b : Builder) (t : Tuple) : Builder :=
  b.emit { returned := some { returnValue := some (returnValue t) } }

/-- What stands before the crossings inside a node. An import has no `Call`. -/
def enter (b : Builder) (n : Node v) : Builder :=
  let b := match n.edge with
    | .export name _ => ((b.step n.site).introduceFunction name n.site).call name
    | .import _ => b
  (b.values n.site n.edge.label .arg n.args).marker n.enter.raw

/-- What stands behind them. An import has no `Return`. -/
def leave (b : Builder) (n : Node v) : Builder :=
  let b := b.values n.site n.edge.label .ret n.results
  let b := match n.edge with
    | .export _ _ => b.ret n.results
    | .import _ => b
  b.marker n.leave.raw

end Builder

/-- The records of a forest, behind what has been written already. -/
def Forest.render : Forest v → Builder → Builder
  | .nil, b => b
  | .cons root inside rest, b => rest.render ((inside.render (b.enter root)).leave root)

/-- The trace of a forest. -/
def Forest.events (f : Forest v) : List TraceEvent := (f.render {}).events

end Boundarylog
