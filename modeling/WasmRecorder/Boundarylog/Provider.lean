import WasmRecorder.Boundarylog.HostState

/-!
# Host-supplied memories and globals

The memories and globals a guest imports live in provider modules that the replay builds
from the recorded initial state. Both sides of the boundary see them: the guest through its
imports, the host through the providers.

* `World.build` — the providers of a recorded initial state.
* `applyInitialMemory`, `applyMutations` — the recorded contents and the recorded writes,
  in order, stopping at the first that cannot be made.
-/

namespace Boundarylog

/-- A linear memory. -/
structure Memory where
  pages : Nat
  max : Option Nat
  data : Nat → UInt8

def pageSize : Nat := 65536

def Memory.size (m : Memory) : Nat := m.pages * pageSize

/-- Write a run of bytes; `none` when it does not fit. -/
def Memory.write (m : Memory) (offset : Nat) (bytes : List UInt8) : Option Memory :=
  if offset + bytes.length ≤ m.size then
    some { m with
      data := fun i => if offset ≤ i then (bytes[i - offset]?).getD (m.data i) else m.data i }
  else none

structure Global where
  type : ScalarType
  «mutable» : Bool
  bits : UInt64
  deriving DecidableEq, Repr

/-- The memories and globals one module name supplies. -/
structure Provider where
  memories : List (Text × Memory)
  globals : List (Text × Global)

/-- The provider modules by name. -/
abbrev World := List (Text × Provider)

namespace World

def memory (w : World) (moduleName name : Text) : Option Memory :=
  (w.lookup moduleName).bind fun p => p.memories.lookup name

def global (w : World) (moduleName name : Text) : Option Global :=
  (w.lookup moduleName).bind fun p => p.globals.lookup name

/-- Change one provider. -/
def modify (w : World) (moduleName : Text) (f : Provider → Provider) : World :=
  w.map fun e => if e.1 = moduleName then (e.1, f e.2) else e

def setMemory (w : World) (moduleName name : Text) (m : Memory) : World :=
  w.modify moduleName fun p =>
    { p with memories := p.memories.map fun e => if e.1 = name then (e.1, m) else e }

def setGlobal (w : World) (moduleName name : Text) (g : Global) : World :=
  w.modify moduleName fun p =>
    { p with globals := p.globals.map fun e => if e.1 = name then (e.1, g) else e }

end World

/-- Why host-supplied state could not be set up or written. -/
inductive ProviderError where
  | regionBase64 (moduleName name : Text) (offset : Nat)
  | memoryMax (moduleName name : Text) (need max : Nat)
  | memoryCount (moduleName : Text) (count : Nat)
  | memoryLimit (moduleName name : Text) (pages : Nat)
  | duplicateExport (moduleName name : Text)
  | global (e : HostStateError)
  | noProvider (moduleName : Text)
  | noMemory (moduleName name : Text)
  | noGlobal (moduleName name : Text)
  | globalConstant (moduleName name : Text)
  | outOfRange (moduleName name : Text) (offset length size : Nat)
  deriving DecidableEq, Repr

/-- The number of pages that hold `n` bytes. -/
def requiredPages (n : Nat) : Nat := min ((n + pageSize - 1) / pageSize) (2 ^ 32 - 1)

/-- The engine's limit on a memory. -/
def memoryLimitPages : Nat := 65536

/-- The declared minimum, grown so that it holds every recorded region. -/
def grownMinPages (m : ImportedMemory) : List MemoryRegion → Nat → Except ProviderError Nat
  | [], pages => .ok pages
  | d :: ds, pages =>
    match d.decode with
    | none => .error (.regionBase64 m.moduleName m.name d.offset)
    | some bytes => grownMinPages m ds (max pages (requiredPages (d.offset + bytes.length)))

/-- The memory a recorded description asks for, zeroed. -/
def ImportedMemory.build (m : ImportedMemory) : Except ProviderError Memory :=
  match grownMinPages m (m.data.getD []) m.minPages with
  | .error e => .error e
  | .ok pages =>
    if m.maxPages.any (· < pages) then
      .error (.memoryMax m.moduleName m.name pages (m.maxPages.getD 0))
    else if memoryLimitPages < pages then .error (.memoryLimit m.moduleName m.name pages)
    else if m.maxPages.any (memoryLimitPages < ·) then
      .error (.memoryLimit m.moduleName m.name (m.maxPages.getD 0))
    else .ok { pages, max := m.maxPages, data := fun _ => 0 }

def ImportedGlobal.build (g : ImportedGlobal) : Except ProviderError Global :=
  match g.decode with
  | .error e => .error (.global e)
  | .ok (t, v) => .ok ⟨t, g.mutable, v.bits⟩

/-- What one module name must supply; `functions` are the stubs it exports besides. -/
structure ProviderSpec where
  moduleName : Text
  memories : List ImportedMemory
  globals : List ImportedGlobal
  functions : List Text

/-- Build and instantiate one provider. The engine admits one memory a module and no two
exports of one name. -/
def ProviderSpec.build (p : ProviderSpec) : Except ProviderError Provider := do
  let memories ← p.memories.mapM fun m => m.build.map fun mem => (m.name, mem)
  let globals ← p.globals.mapM fun g => g.build.map fun x => (g.name, x)
  if 1 < memories.length then throw (.memoryCount p.moduleName memories.length)
  let names := p.functions ++ memories.map Prod.fst ++ globals.map Prod.fst
  match names.find? fun n => 1 < names.count n with
  | some name => throw (.duplicateExport p.moduleName name)
  | none => return { memories, globals }

/-- The specs of a recorded initial state, one for each module name in it. The source sorts
the names, which only decides the error reported when several providers cannot be built. -/
def providerModules (state : Option HostState) (functions : List (Text × Text)) :
    List ProviderSpec :=
  let memories := (state.map HostState.memoryList).getD []
  let globals := (state.map HostState.globalList).getD []
  let names := (memories.map ImportedMemory.moduleName
    ++ globals.map ImportedGlobal.moduleName).dedup
  names.map fun n => {
    moduleName := n
    memories := memories.filter (·.moduleName = n)
    globals := globals.filter (·.moduleName = n)
    functions := (functions.filter (·.1 = n)).map Prod.snd }

/-- Instantiate the providers of a recorded initial state. -/
def World.build (state : Option HostState) (functions : List (Text × Text)) :
    Except ProviderError World :=
  (providerModules state functions).mapM fun p => p.build.map fun x => (p.moduleName, x)

/-! ### Writing -/

/-- Write bytes into an imported memory. -/
def World.writeMemory (w : World) (moduleName name : Text) (offset : Nat) (bytes : List UInt8) :
    Except ProviderError World :=
  match w.lookup moduleName with
  | none => .error (.noProvider moduleName)
  | some p =>
    match p.memories.lookup name with
    | none => .error (.noMemory moduleName name)
    | some m =>
      match m.write offset bytes with
      | none => .error (.outOfRange moduleName name offset bytes.length m.size)
      | some m' => .ok (w.setMemory moduleName name m')

/-- Assign an imported global. -/
def World.assignGlobal (w : World) (s : GlobalSet) : Except ProviderError World :=
  match w.lookup s.moduleName with
  | none => .error (.noProvider s.moduleName)
  | some p =>
    match p.globals.lookup s.name with
    | none => .error (.noGlobal s.moduleName s.name)
    | some g =>
      if ¬ g.mutable then .error (.globalConstant s.moduleName s.name)
      else match s.decode with
        | .error e => .error (.global e)
        | .ok v => .ok (w.setGlobal s.moduleName s.name { g with bits := v.bits })

/-- Apply writes in order up to the first that fails. What was written before it stays. -/
def World.applyAll {α : Type} (write : World → α → Except ProviderError World) :
    World → List α → World × Option ProviderError
  | w, [] => (w, none)
  | w, x :: xs =>
    match write w x with
    | .error e => (w, some e)
    | .ok w' => applyAll write w' xs

/-- One elementary write of a recording. -/
inductive HostWrite where
  | memory (moduleName name : Text) (offset : Nat) (bytesB64 : Text)
  | global (s : GlobalSet)
  deriving DecidableEq, Repr

def HostWrite.apply (w : World) : HostWrite → Except ProviderError World
  | .memory moduleName name offset bytesB64 =>
    match Strconv.decodeBase64 bytesB64 with
    | none => .error (.regionBase64 moduleName name offset)
    | some bytes => w.writeMemory moduleName name offset bytes
  | .global s => w.assignGlobal s

/-- The elementary writes of one mutation: memory first, then globals. -/
def HostMutation.writes (mu : HostMutation) : List HostWrite :=
  (mu.memoryWrites.getD []).map (fun w => .memory w.moduleName w.name w.offset w.bytesB64)
    ++ (mu.globalSets.getD []).map .global

/-- The elementary writes of the initial memory contents. -/
def HostState.initialWrites (h : HostState) : List HostWrite :=
  h.memoryList.flatMap fun m =>
    (m.data.getD []).map fun d => .memory m.moduleName m.name d.offset d.bytesB64

/-- Write the recorded initial contents into every imported memory. -/
def applyInitialMemory (state : Option HostState) (w : World) : World × Option ProviderError :=
  w.applyAll HostWrite.apply ((state.map HostState.initialWrites).getD [])

/-- The writes anchored to one crossing. -/
def mutationWrites (state : Option HostState) (seq : Nat) : List HostWrite :=
  ((state.map fun h => h.mutationsFor seq).getD []).flatMap HostMutation.writes

/-- Apply the recorded writes anchored to one crossing. -/
def applyMutations (state : Option HostState) (seq : Nat) (w : World) :
    World × Option ProviderError :=
  w.applyAll HostWrite.apply (mutationWrites state seq)

end Boundarylog
