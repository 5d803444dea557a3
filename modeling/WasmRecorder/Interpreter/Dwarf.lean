import Mathlib

/-!
# The DWARF index of a module

What the interpreter looks up while it records: lines, variables with their locations, and the types
of variables. A type is a node of a graph, which may be cyclic through pointers; nodes are referred
to by number.
-/

namespace Interpreter

abbrev Bytes := List UInt8

abbrev Text := List Char

inductive LocationType where
  | local_
  | global
  | operandStack
  | directLocal
  deriving DecidableEq, Repr

structure MemoryLocation where
  typ : LocationType
  index : Nat
  deriving DecidableEq, Repr

/-- The number of a type. -/
abbrev TypeRef := Nat

structure StructField where
  name : Text
  byteOffset : Int
  type : TypeRef
  deriving DecidableEq, Repr

/-- What kind of type it is. -/
inductive Shape where
  | int
  | uint
  | bool
  | float
  | struct (fields : List StructField)
  | ptr (type : TypeRef)
  | array (type : TypeRef) (count : Int)
  | other
  deriving DecidableEq, Repr

/-- A type, with its text, its own `ByteSize`, and what `Size()` computes for it. -/
structure DwarfType where
  text : Text
  byteSize : Int
  size : Int
  shape : Shape
  deriving DecidableEq, Repr

structure LineRecord where
  fileName : Text
  line : Int
  column : Int
  deriving DecidableEq, Repr

/-- The type is missing where it could not be read. -/
structure VariableRecord where
  lowPC : Nat
  highPC : Nat
  name : Text
  location : MemoryLocation
  type : Option TypeRef
  deriving DecidableEq, Repr

end Interpreter
