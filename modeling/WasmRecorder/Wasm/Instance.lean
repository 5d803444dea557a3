import Mathlib

/-!
# Module instances

What instructions read and write: the memory, the globals, the tables and the segments of an
instance, and the addresses its engine gave to its functions.

* `ModuleInstance` — the state of an instance.
* `MemoryInstance.grow` — the growth of a memory that is all there is of its array; see
  `Wasm/MemoryGrow` for the arrays.
-/

namespace Wasm

abbrev Bytes := List UInt8

/-- A reference is an address in the engine, or null. -/
abbrev Reference := UInt64

inductive RefType where
  | funcref
  | externref
  deriving DecidableEq, Repr

inductive ValueType where
  | i32
  | i64
  | f32
  | f64
  | v128
  | ref (t : RefType)
  deriving DecidableEq, Repr

def RefType.byte : RefType → UInt8
  | .funcref => 0x70
  | .externref => 0x6f

def ValueType.byte : ValueType → UInt8
  | .i32 => 0x7f
  | .i64 => 0x7e
  | .f32 => 0x7d
  | .f64 => 0x7c
  | .v128 => 0x7b
  | .ref t => t.byte

def ValueType.isRef : ValueType → Bool
  | .ref _ => true
  | _ => false

structure GlobalType where
  valType : ValueType
  isMutable : Bool
  deriving DecidableEq, Repr

structure GlobalInstance where
  type : GlobalType
  val : UInt64
  /-- The upper half of a vector. -/
  valHi : UInt64
  deriving DecidableEq, Repr

/-- The size of a page of memory. -/
def memoryPageSize : Nat := 65536

/-- No memory has more pages. -/
def memoryLimitPages : Nat := 65536

structure MemoryInstance where
  buffer : Bytes
  /-- The largest size, in pages. -/
  max : UInt32
  deriving DecidableEq, Repr

structure TableInstance where
  references : List Reference
  /-- The largest size, if there is one. -/
  max : Option UInt32
  type : RefType
  deriving DecidableEq, Repr

/-- No module has more functions. -/
def maximumFunctionIndex : Nat := 2 ^ 27

/-- The functions of an instance of the interpreter, by their addresses. -/
structure ModuleEngine where
  functions : List Reference
  nodup : functions.Nodup
  nonzero : 0 ∉ functions
  count : functions.length ≤ maximumFunctionIndex

/-- The address of a function. -/
def ModuleEngine.functionInstanceReference (e : ModuleEngine) (i : Nat) : Option Reference :=
  e.functions[i]?

/-- The values of globals are in the instance, never in the engine. -/
def ModuleEngine.ownsGlobals (_ : ModuleEngine) : Bool := false

structure ModuleInstance where
  globals : List GlobalInstance
  memory : Option MemoryInstance
  tables : List TableInstance
  engine : ModuleEngine
  dataInstances : List Bytes
  elementInstances : List (List Reference)

/-! ### Growing -/

/-- The number of pages. -/
def MemoryInstance.pages (m : MemoryInstance) : UInt32 :=
  UInt32.ofNat (m.buffer.length / memoryPageSize)

/-- Returns the old size in pages, unless the new one is not allowed. -/
def MemoryInstance.grow (m : MemoryInstance) (delta : UInt32) : Option (UInt32 × MemoryInstance) :=
  let currentPages := m.pages
  if delta = 0 then some (currentPages, m)
  else
    let newPages := currentPages + delta
    if m.max < newPages ∨ delta.toInt32 < 0 then none
    else some (currentPages,
      { m with buffer := m.buffer ++ List.replicate (delta.toNat * memoryPageSize) 0 })

end Wasm
