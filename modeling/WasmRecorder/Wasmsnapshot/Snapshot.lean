import WasmRecorder.Wasm.Instance
import WasmRecorder.Wasmsnapshot.Container

/-!
# Taking a snapshot and going back to it

* `capture` — the state of an instance between two exported calls. Tables are written down as
  function indices, since the addresses an engine gives to functions have no meaning elsewhere.
* `Snapshot.restore` — a snapshot put into a fresh instance of the same module.

A restore that fails is only modelled by its error: what it has written into the instance before
is not looked at by anyone.
-/

namespace Wasmsnapshot

open Checked Wasm

/-! ### Capture -/

inductive CaptureError where
  | memorySize (length : Nat)
  | ownsGlobals
  | externref (table : Nat)
  | foreignFunction (table slot : Nat)
  deriving DecidableEq, Repr

def captureMemory : Option MemoryInstance → Except CaptureError Bytes
  | none => .ok []
  | some mem =>
    if mem.buffer.length % pageSize ≠ 0 then .error (.memorySize mem.buffer.length)
    else .ok mem.buffer

def captureGlobal (g : GlobalInstance) : GlobalValue :=
  ⟨g.type.valType.byte, g.type.isMutable, g.val, g.valHi⟩

/-- A function reference as the index of the function it is the address of. -/
def captureElement (e : ModuleEngine) (table slot : Nat) (ref : Reference) :
    Except CaptureError Int32 :=
  if ref = 0 then .ok nullElement
  else match e.functions.idxOf? ref with
    | some fi => .ok (Int32.ofNat fi)
    | none => .error (.foreignFunction table slot)

/-- The slots of a table from one of them on. -/
def captureElements (e : ModuleEngine) (table : Nat) :
    Nat → List Reference → Except CaptureError (List Int32)
  | _, [] => .ok []
  | slot, ref :: refs => do
    let fi ← captureElement e table slot ref
    let fis ← captureElements e table (slot + 1) refs
    return fi :: fis

def captureTable (e : ModuleEngine) (i : Nat) (t : TableInstance) :
    Except CaptureError TableValue :=
  match t.type with
  | .externref =>
    if ∃ ref ∈ t.references, ref ≠ 0 then .error (.externref i)
    else .ok ⟨t.type.byte, t.references.map fun _ => nullElement⟩
  | .funcref => do
    let elements ← captureElements e i 0 t.references
    return ⟨t.type.byte, elements⟩

/-- The tables from one of them on. -/
def captureTables (e : ModuleEngine) :
    Nat → List TableInstance → Except CaptureError (List TableValue)
  | _, [] => .ok []
  | i, t :: ts => do
    let v ← captureTable e i t
    let vs ← captureTables e (i + 1) ts
    return v :: vs

def capture (m : ModuleInstance) (point : Int) : Except CaptureError Snapshot := do
  let memory ← captureMemory m.memory
  if m.engine.ownsGlobals then .error .ownsGlobals
  else
    let tables ← captureTables m.engine 0 m.tables
    return ⟨point, UInt64.ofNat memory.length, memory, m.globals.map captureGlobal, tables⟩

/-! ### Restore -/

inductive RestoreError where
  | noMemory (length : Nat)
  | memoryLarger (length : Nat) (recorded : UInt64)
  | cannotGrow (recorded : UInt64)
  | memoryMissing
  | ownsGlobals
  | globalCount (recorded count : Nat)
  | globalType (i : Nat)
  | tableCount (recorded count : Nat)
  | tableLength (i recorded length : Nat)
  deriving DecidableEq, Repr

/-- A copy over the beginning of a buffer, as far as both go. -/
def copyOver (dst src : Bytes) : Bytes := src.take dst.length ++ dst.drop src.length

/-- The memory of an instance, grown to the size of the snapshot. -/
def growTo (mem : MemoryInstance) (size : UInt64) : Except (Fault RestoreError) MemoryInstance :=
  if mem.buffer.length < size.toNat then
    match mem.grow (UInt32.ofNat ((size.toNat - mem.buffer.length) / pageSize)) with
    | some (_, mem') => .ok mem'
    | none => .error (.error (.cannotGrow size))
  else .ok mem

def Snapshot.restoreMemory (s : Snapshot) (memory : Option MemoryInstance) :
    Except (Fault RestoreError) (Option MemoryInstance) :=
  if s.memory ≠ [] then
    match memory with
    | none => .error (.error (.noMemory s.memory.length))
    | some mem =>
      if s.memoryBytes.toNat < mem.buffer.length then
        .error (.error (.memoryLarger mem.buffer.length s.memoryBytes))
      else do
        let mem ← growTo mem s.memoryBytes
        return some { mem with buffer := copyOver mem.buffer s.memory }
  else if ∃ mem ∈ memory, mem.buffer.length ≠ 0 then .error (.error .memoryMissing)
  else .ok memory

/-- The globals from one of them on. -/
def restoreGlobals :
    Nat → List GlobalValue → List GlobalInstance → Except (Fault RestoreError) (List GlobalInstance)
  | i, v :: vs, g :: gs => do
    if g.type.valType.byte ≠ v.valueType then .error (.error (.globalType i))
    else
      let gs ← restoreGlobals (i + 1) vs gs
      return { g with val := v.lo, valHi := v.hi } :: gs
  | _, _, gs => .ok gs

def restoreElement (e : ModuleEngine) (fi : Int32) : Except (Fault RestoreError) Reference :=
  if fi = nullElement then .ok 0
  else match e.functionInstanceReference fi.toUInt32.toNat with
    | some ref => .ok ref
    | none => .error .panic

/-- The tables from one of them on. -/
def restoreTables (e : ModuleEngine) :
    Nat → List TableValue → List TableInstance → Except (Fault RestoreError) (List TableInstance)
  | i, v :: vs, t :: ts => do
    if v.elements.length ≠ t.references.length then
      .error (.error (.tableLength i v.elements.length t.references.length))
    else
      let references ← v.elements.mapM (restoreElement e)
      let ts ← restoreTables e (i + 1) vs ts
      return { t with references } :: ts
  | _, _, ts => .ok ts

def Snapshot.restore (s : Snapshot) (m : ModuleInstance) :
    Except (Fault RestoreError) ModuleInstance := do
  let memory ← s.restoreMemory m.memory
  if m.engine.ownsGlobals then .error (.error .ownsGlobals)
  else if s.globals.length ≠ m.globals.length then
    .error (.error (.globalCount s.globals.length m.globals.length))
  else
    let globals ← restoreGlobals 0 s.globals m.globals
    if s.tables.length ≠ m.tables.length then
      .error (.error (.tableCount s.tables.length m.tables.length))
    else
      let tables ← restoreTables m.engine 0 s.tables m.tables
      return { m with memory, globals, tables }

end Wasmsnapshot
