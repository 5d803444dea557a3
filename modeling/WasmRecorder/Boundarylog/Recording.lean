import WasmRecorder.Boundarylog.Values
import WasmRecorder.Lib.Json.Unmarshal

/-!
# Trace records and crossings

The elements of `trace.json` as the reader decodes them, the crossings recovered from
them, and the three small languages the producer puts into record texts: binding
names, import labels and realm markers.

* `parseBindingName` / `bindingName`, `parseImportLabel` / `importLabel` — the readers
  are left inverse to the spellings (`parseBindingName_bindingName`,
  `parseImportLabel_importLabel`).
* `parseRealmMarker` — an `Event` record read as a `js-wasm-realm` marker.
-/

namespace Boundarylog

/-! ### Crossings -/

/-- The two directions of a crossing: into the module, or out of it. -/
inductive CrossingKind where
  | «export»
  | «import»
  deriving DecidableEq, Repr

/-- One recorded traversal of the boundary. Values stay in their recorded encoding; the
types come later, from the module's signatures. -/
structure Crossing where
  /-- Position in call order across the whole recording. -/
  seq : Nat
  /-- Number of crossings open around this one. -/
  depth : Nat
  kind : CrossingKind
  /-- The exported function's name; empty for an import. -/
  name : Text := []
  /-- The import index; zero for an export. -/
  index : UInt32 := 0
  args : List RawValue := []
  results : List RawValue := []
  /-- A result run was seen, as opposed to dropped by the rendering. -/
  hasResults : Bool := false
  /-- The crossing was delimited by its own pair of import markers. -/
  markerBracketed : Bool := false
  deriving DecidableEq, Repr

def Crossing.isTopLevelExport (c : Crossing) : Bool := c.kind = .export ∧ c.depth = 0

def Crossing.isNestedExport (c : Crossing) : Bool := c.kind = .export ∧ 0 < c.depth

/-! ### Records

Each decoder is a table of the struct's JSON field names with what storing into that
field does. -/

open Json (Decode intoStruct intoString intoUint intoInt intoBool intoRaw intoPtr intoSlice)

structure FunctionRecord where
  name : Text := []
  pathId : Nat := 0
  line : Int := 0
  deriving DecidableEq, Repr

def FunctionRecord.into : FunctionRecord → Json.Value → Decode FunctionRecord :=
  intoStruct [
    ("name".toList, fun r v => (intoString r.name v).map fun x => { r with name := x }),
    ("path_id".toList, fun r v => (intoUint 32 r.pathId v).map fun x => { r with pathId := x }),
    ("line".toList, fun r v => (intoInt 64 r.line v).map fun x => { r with line := x })]

structure CallRecord where
  functionId : Nat := 0
  args : Option (List (Option Json.Value)) := none

def CallRecord.into : CallRecord → Json.Value → Decode CallRecord :=
  intoStruct [
    ("function_id".toList,
      fun r v => (intoUint 32 r.functionId v).map fun x => { r with functionId := x }),
    ("args".toList, fun r v => (intoSlice intoRaw none r.args v).map fun x => { r with args := x })]

structure ReturnRecord where
  returnValue : Option Json.Value := none

def ReturnRecord.into : ReturnRecord → Json.Value → Decode ReturnRecord :=
  intoStruct [
    ("return_value".toList,
      fun r v => (intoRaw r.returnValue v).map fun x => { r with returnValue := x })]

structure ValueRecord where
  variableId : Nat := 0
  value : Option Json.Value := none

def ValueRecord.into : ValueRecord → Json.Value → Decode ValueRecord :=
  intoStruct [
    ("variable_id".toList,
      fun r v => (intoUint 32 r.variableId v).map fun x => { r with variableId := x }),
    ("value".toList, fun r v => (intoRaw r.value v).map fun x => { r with value := x })]

/-- One element of `trace.json`. The producer writes single-key objects. -/
structure TraceEvent where
  path : Option Text := none
  step : Option Json.Value := none
  function : Option FunctionRecord := none
  call : Option CallRecord := none
  returned : Option ReturnRecord := none
  value : Option ValueRecord := none
  variableName : Option Text := none
  event : Option Json.Value := none

/-- A raw value behind a pointer. -/
def intoRawPtr (old : Option Json.Value) : Json.Value → Decode (Option Json.Value) :=
  intoPtr (fun _ v => .ok v) .null old

def TraceEvent.into : TraceEvent → Json.Value → Decode TraceEvent :=
  intoStruct [
    ("Path".toList, fun r v => (intoPtr intoString [] r.path v).map fun x => { r with path := x }),
    ("Step".toList, fun r v => (intoRawPtr r.step v).map fun x => { r with step := x }),
    ("Function".toList,
      fun r v => (intoPtr FunctionRecord.into {} r.function v).map fun x =>
        { r with function := x }),
    ("Call".toList,
      fun r v => (intoPtr CallRecord.into {} r.call v).map fun x => { r with call := x }),
    ("Return".toList,
      fun r v => (intoPtr ReturnRecord.into {} r.returned v).map fun x =>
        { r with returned := x }),
    ("Value".toList,
      fun r v => (intoPtr ValueRecord.into {} r.value v).map fun x => { r with value := x }),
    ("VariableName".toList,
      fun r v => (intoPtr intoString [] r.variableName v).map fun x =>
        { r with variableName := x }),
    ("Event".toList, fun r v => (intoRawPtr r.event v).map fun x => { r with event := x })]

/-- `ValueRecordOnDisk`: a kind and the payload field of each kind. -/
structure OnDiskValue where
  kind : Text := []
  i : Text := []
  f : Text := []
  r : Text := []
  text : Text := []
  b : Option Bool := none
  deriving DecidableEq, Repr

def OnDiskValue.into : OnDiskValue → Json.Value → Decode OnDiskValue :=
  intoStruct [
    ("kind".toList, fun o v => (intoString o.kind v).map fun x => { o with kind := x }),
    ("i".toList, fun o v => (intoString o.i v).map fun x => { o with i := x }),
    ("f".toList, fun o v => (intoString o.f v).map fun x => { o with f := x }),
    ("r".toList, fun o v => (intoString o.r v).map fun x => { o with r := x }),
    ("text".toList, fun o v => (intoString o.text v).map fun x => { o with text := x }),
    ("b".toList, fun o v => (intoPtr intoBool false o.b v).map fun x => { o with b := x })]

def OnDiskValue.raw (v : OnDiskValue) : RawValue :=
  if v.kind = "Int".toList then ⟨v.kind, v.i⟩
  else if v.kind = "Float".toList then ⟨v.kind, v.f⟩
  else if v.kind = "Raw".toList then ⟨v.kind, v.r⟩
  else if v.kind = "String".toList then ⟨v.kind, v.text⟩
  else if v.kind = "Bool".toList then
    if v.b = some true then ⟨v.kind, "true".toList⟩ else ⟨v.kind, "false".toList⟩
  else ⟨v.kind, []⟩

/-- Unmarshal a raw message that may never have been set. -/
def unmarshalRaw {α : Type} (into : α → Json.Value → Decode α) (zero : α) :
    Option Json.Value → Decode α
  | none => .error .syntaxError
  | some v => into zero v

/-! ### Binding names -/

/-- Which tuple of a crossing a binding belongs to. -/
inductive Role where
  | arg
  | ret
  deriving DecidableEq, Repr

def Role.string : Role → Text
  | .arg => "arg".toList
  | .ret => "ret".toList

/-- Cut a text at the last occurrence of a character. -/
def cutLast (c : Char) : Text → Option (Text × Text)
  | [] => none
  | x :: xs =>
    match cutLast c xs with
    | some (before, after) => some (x :: before, after)
    | none => if x = c then some ([], xs) else none

structure Binding where
  label : Text
  role : Role
  slot : Nat
  deriving DecidableEq, Repr

/-- The role a suffix starts with and what follows it. -/
def cutRole : Text → Option (Role × Text)
  | 'a' :: 'r' :: 'g' :: ds => some (.arg, ds)
  | 'r' :: 'e' :: 't' :: ds => some (.ret, ds)
  | _ => none

/-- Split `label:role<slot>` back into its parts. The label may contain colons. -/
def parseBindingName (name : Text) : Option Binding :=
  match cutLast ':' name with
  | none => none
  | some (label, suffix) =>
    match cutRole suffix with
    | none => none
    | some (role, digits) =>
      if digits = [] then none
      else match Strconv.atoi digits with
        | none => none
        | some n => if n < 0 ∨ label = [] then none else some ⟨label, role, n.toNat⟩

/-- The name the producer gives slot `slot` of a tuple. -/
def bindingName (label : Text) (role : Role) (slot : Nat) : Text :=
  label ++ ':' :: (role.string ++ Strconv.formatUint slot)

theorem cutLast_eq_none {c : Char} {s : Text} (hs : c ∉ s) : cutLast c s = none := by
  induction s with
  | nil => rfl
  | cons x xs ih =>
    rw [List.mem_cons, not_or] at hs
    rw [cutLast, ih hs.2]
    exact if_neg (Ne.symm hs.1)

theorem cutLast_append {c : Char} (before : Text) {after : Text} (hafter : c ∉ after) :
    cutLast c (before ++ c :: after) = some (before, after) := by
  induction before with
  | nil =>
    rw [List.nil_append, cutLast, cutLast_eq_none hafter]
    exact if_pos rfl
  | cons x xs ih => rw [List.cons_append, cutLast, ih]

private theorem colon_notMem_suffix (role : Role) (slot : Nat) :
    ':' ∉ role.string ++ Strconv.formatUint slot := by
  rw [List.mem_append, not_or]
  constructor
  · cases role <;> decide
  · intro hmem
    exact absurd (Strconv.isDigit_of_mem_formatUint hmem) (by decide)

theorem parseBindingName_bindingName {label : Text} (hlabel : label ≠ []) (role : Role)
    {slot : Nat} (hslot : slot < 2 ^ 63) :
    parseBindingName (bindingName label role slot) = some ⟨label, role, slot⟩ := by
  have hrole : cutRole (role.string ++ Strconv.formatUint slot)
      = some (role, Strconv.formatUint slot) := by cases role <;> rfl
  have hneg : ¬ ((slot : Int) < 0 ∨ label = []) := by
    rintro (h | h)
    · omega
    · exact hlabel h
  rw [parseBindingName, bindingName, cutLast_append label (colon_notMem_suffix role slot)]
  simp only [hrole, if_neg (Strconv.formatUint_ne_nil slot), Strconv.atoi_formatUint hslot,
    if_neg hneg, Int.toNat_natCast]

/-! ### Import labels -/

def importLabelPrefix : Text := "import #".toList

/-- The label of one import's bindings. -/
def importLabel (index : UInt32) : Text := importLabelPrefix ++ Strconv.formatUint index.toNat

/-- The decimal `u32` after a fixed text. -/
def parseIndexAfter (start text : Text) : Option UInt32 :=
  if start.isPrefixOf text then
    (Strconv.parseUint (text.drop start.length) 32).map UInt32.ofNat
  else none

def parseImportLabel (label : Text) : Option UInt32 := parseIndexAfter importLabelPrefix label

theorem parseIndexAfter_formatUint (start : Text) (index : UInt32) :
    parseIndexAfter start (start ++ Strconv.formatUint index.toNat) = some index := by
  have hpre : start.isPrefixOf (start ++ Strconv.formatUint index.toNat) = true :=
    List.isPrefixOf_iff_prefix.mpr (List.prefix_append _ _)
  rw [parseIndexAfter, if_pos hpre, List.drop_left,
    Strconv.parseUint_formatUint index.toNat_lt, Option.map_some, UInt32.ofNat_toNat]

theorem parseImportLabel_importLabel (index : UInt32) :
    parseImportLabel (importLabel index) = some index :=
  parseIndexAfter_formatUint importLabelPrefix index

theorem importLabel_ne_nil (index : UInt32) : importLabel index ≠ [] := List.cons_ne_nil _ _

theorem importLabel_injective {i j : UInt32} (h : importLabel i = importLabel j) : i = j := by
  have hi := parseImportLabel_importLabel i
  rw [h, parseImportLabel_importLabel j] at hi
  exact (Option.some.inj hi).symm

/-! ### Realm markers -/

def eventKindTraceLogEvent : Int := 12

def jsWasmRealmBoundary : Text := "js-wasm-realm".toList

def exportMarkerPrefix : Text := "wasm export #".toList

def importMarkerPrefix : Text := "wasm import #".toList

def markerEnterDirection : Text := "recv".toList

def markerLeaveDirection : Text := "send".toList

/-- The payload of an `Event` record. -/
structure EventRecord where
  kind : Int := 0
  metadata : Text := []
  content : Text := []
  deriving DecidableEq, Repr

def EventRecord.into : EventRecord → Json.Value → Decode EventRecord :=
  intoStruct [
    ("kind".toList, fun r v => (intoInt 64 r.kind v).map fun x => { r with kind := x }),
    ("metadata".toList, fun r v => (intoString r.metadata v).map fun x => { r with metadata := x }),
    ("content".toList, fun r v => (intoString r.content v).map fun x => { r with content := x })]

/-- What is read of the JSON document nested in a marker's `metadata`. -/
structure MarkerMetadata where
  boundaryId : Text := []
  direction : Text := []
  showValue : Text := []
  deriving DecidableEq, Repr

def MarkerMetadata.into : MarkerMetadata → Json.Value → Decode MarkerMetadata :=
  intoStruct [
    ("boundary_id".toList,
      fun r v => (intoString r.boundaryId v).map fun x => { r with boundaryId := x }),
    ("direction".toList,
      fun r v => (intoString r.direction v).map fun x => { r with direction := x }),
    ("show_value".toList,
      fun r v => (intoString r.showValue v).map fun x => { r with showValue := x })]

structure RealmMarker where
  /-- The edge the marker names. -/
  kind : CrossingKind
  index : UInt32
  /-- At the call site, as opposed to the return site. -/
  enter : Bool
  deriving DecidableEq, Repr

/-- The edge a `show_value` names. -/
def parseShowValue (text : Text) : Option (CrossingKind × UInt32) :=
  if importMarkerPrefix.isPrefixOf text then
    (parseIndexAfter importMarkerPrefix text).map fun n => (.import, n)
  else if exportMarkerPrefix.isPrefixOf text then
    (parseIndexAfter exportMarkerPrefix text).map fun n => (.export, n)
  else none

def parseDirection (text : Text) : Option Bool :=
  if text = markerEnterDirection then some true
  else if text = markerLeaveDirection then some false
  else none

/-- The marker a decoded metadata document describes. -/
def MarkerMetadata.marker (m : MarkerMetadata) : Option RealmMarker :=
  if m.boundaryId ≠ jsWasmRealmBoundary then none
  else match parseShowValue m.showValue, parseDirection m.direction with
    | some (kind, index), some enter => some ⟨kind, index, enter⟩
    | _, _ => none

/-- Read an `Event` payload as a realm marker. Anything else, malformed JSON included,
is no marker and no error. -/
def parseRealmMarker (raw : Json.Value) : Option RealmMarker :=
  match EventRecord.into {} raw with
  | .error _ => none
  | .ok ev =>
    if ev.kind ≠ eventKindTraceLogEvent then none
    else match Json.unmarshal MarkerMetadata.into {} (Json.encode ev.metadata) with
      | .error _ => none
      | .ok m => m.marker

end Boundarylog
