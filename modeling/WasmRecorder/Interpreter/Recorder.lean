import WasmRecorder.Interpreter.Dwarf
import WasmRecorder.Lib.Stateful

/-!
# What a recorder receives

The readers of variables call the trace recorder for the number of a type, which registers the type
when it is new. The values they make are the recorder's own.

* `ValueRecord` — the values of a trace.
* `Recorder` — the log, and the table that says which types were registered before.
* `RecordM` — a step of a hook, which can fail.
-/

namespace Interpreter

inductive ValueRecord where
  | nil
  | int (i : Int) (typeId : Nat)
  /-- A number in 32 or 64 bits. -/
  | float (size : Int) (bits : Nat) (typeId : Nat)
  | bool (b : Bool) (typeId : Nat)
  | string (text : Text) (typeId : Nat)
  | struct (fields : List ValueRecord) (typeId : Nat)
  | sequence (elements : List (Option ValueRecord)) (isSlice : Bool) (typeId : Nat)
  | reference (dereferenced : ValueRecord) (address : Nat) (typeId : Nat)
  | tuple (elements : List (Option ValueRecord)) (typeId : Nat)
  | bigInt (bytes : Bytes) (typeId : Nat)

inductive TypeKind where
  | int
  | float
  | pointer
  | array
  | slice
  | bool
  | string
  | struct
  deriving DecidableEq, Repr

inductive TypeSpecificInfo where
  | none
  | struct (fields : List (Text × Nat))
  | pointer (dereferenceTypeId : Nat)
  deriving DecidableEq, Repr

inductive Event where
  | typeWithNewId (name : Text) (kind : TypeKind) (info : TypeSpecificInfo)

/-- The log, and the types that were registered for each module, in the order of their numbers. -/
structure Recorder where
  log : List Event
  typesIndex : Nat → List Text

/-- How a hook ends that does not end well: it panics, or it calls itself too deep. -/
inductive Fault where
  | panic
  | overflow
  deriving DecidableEq, Repr

abbrev RecordM := EStateM Fault Recorder

def goPanic : RecordM α := throw .panic

def emit (event : Event) : RecordM Unit := modify fun r => { r with log := r.log ++ [event] }

/-- The number of a type, which is registered when it is new. -/
def typeIdOf (module : Nat) (name : Text) (kind : TypeKind) (info : TypeSpecificInfo) :
    RecordM Nat := do
  let seen := (← get).typesIndex module
  if name ∈ seen then return seen.idxOf name
  else
    modify fun r => { r with
      typesIndex := fun m => if m = module then seen ++ [name] else r.typesIndex m }
    emit (.typeWithNewId name kind info)
    return seen.length

end Interpreter
