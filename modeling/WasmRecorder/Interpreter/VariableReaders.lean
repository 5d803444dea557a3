import WasmRecorder.Interpreter.Recorder
import WasmRecorder.Wasm.MemoryAccess

/-!
# Reading the variables of a program out of its memory

The readers follow the type of a variable through the memory of the running program, whatever that
memory holds. They call each other through `bytesToValueRecord`, which is recursive in the types and,
through pointers, in the memory; its depth is bounded by `fuel`, and a reader that needs more is one
whose recursion overflows the stack.
-/

namespace Interpreter

open LittleEndian

/-- What a hook sees of the module. -/
structure Hook where
  module : Nat
  memory : Option Wasm.MemoryInstance
  globals : List UInt64
  vecElem : Text → Option TypeRef

/-- A slice, with the bytes up to its capacity. -/
structure Raw where
  bytes : Bytes
  length : Nat

def Raw.ofBytes (b : Bytes) : Raw := ⟨b, b.length⟩

/-- The slice from `low` to `high`, which may go up to the capacity. -/
def Raw.sub (raw : Raw) (low high : Int) : RecordM Raw :=
  if 0 ≤ low ∧ low ≤ high ∧ high ≤ raw.bytes.length then
    return ⟨raw.bytes.drop low.toNat, (high - low).toNat⟩
  else goPanic

/-- The unsigned number in the first bytes. -/
def Raw.uint (raw : Raw) (width : Nat) : RecordM Nat :=
  if width ≤ raw.length then return decode (raw.bytes.take width) else goPanic

/-- A number of a given width, read as signed. -/
def signed (width : Nat) (n : Nat) : Int :=
  if n < 2 ^ (8 * width - 1) then n else (n : Int) - 2 ^ (8 * width)

/-- What a reader returns: a value, the number of its type, and whether there was an error. -/
structure Reading where
  value : Option ValueRecord
  typeId : Nat
  failed : Bool

def invalidTypeId : Nat := 2 ^ 64 - 1

def Reading.error : Reading := ⟨none, invalidTypeId, true⟩

namespace Hook

/-- `Memory().Read`: the module must have a memory, and the accessor itself can panic. -/
def read (h : Hook) (offset byteCount : UInt32) : RecordM (Option Bytes) :=
  match h.memory with
  | none => goPanic
  | some m =>
    match m.read offset byteCount with
    | .ok bytes => return bytes
    | .error _ => goPanic

/-- The number of the type, for a value of it. -/
def typed (h : Hook) (t : DwarfType) (kind : TypeKind) (info : TypeSpecificInfo)
    (value : Nat → ValueRecord) : RecordM Reading := do
  let typeId ← typeIdOf h.module t.text kind info
  return ⟨some (value typeId), typeId, false⟩

/-! ### Numbers -/

def bytesToInt (h : Hook) (raw : Raw) (t : DwarfType) : RecordM Reading :=
  if t.byteSize = 1 ∨ t.byteSize = 2 ∨ t.byteSize = 4 ∨ t.byteSize = 8 then do
    let n ← raw.uint t.byteSize.toNat
    h.typed t .int .none (.int (signed t.byteSize.toNat n))
  else return .error

def bytesToUint (h : Hook) (raw : Raw) (t : DwarfType) : RecordM Reading :=
  if t.byteSize = 1 ∨ t.byteSize = 2 ∨ t.byteSize = 4 ∨ t.byteSize = 8 then do
    let n ← raw.uint t.byteSize.toNat
    -- the value is kept in 64 bits with a sign
    h.typed t .int .none (.int (signed 8 n))
  else return .error

def bytesToBool (h : Hook) (raw : Raw) (t : DwarfType) : RecordM Reading :=
  if t.byteSize = 1 then do
    let n ← raw.uint 1
    h.typed t .bool .none (.bool (n ≠ 0))
  else return .error

def bytesToFloat (h : Hook) (raw : Raw) (t : DwarfType) : RecordM Reading :=
  if t.byteSize = 4 ∨ t.byteSize = 8 then do
    let n ← raw.uint t.byteSize.toNat
    h.typed t .float .none (.float t.byteSize n)
  else return .error

def bytesToVoidptr (h : Hook) (t : DwarfType) : RecordM Reading :=
  h.typed t .slice .none fun _ => .nil

section Composite

variable (types : TypeRef → DwarfType) (recur : Raw → TypeRef → RecordM Reading)

/-- The fields of a structure, up to the first that cannot be read. -/
def structFields (raw : Raw) : List StructField → RecordM (Option (List (ValueRecord × Text × Nat)))
  | [] => return some []
  | field :: rest => do
    let part ← raw.sub field.byteOffset (field.byteOffset + (types field.type).size)
    let r ← recur part field.type
    match r.failed, r.value with
    | false, some value =>
      let more ← structFields raw rest
      return more.map ((value, field.name, r.typeId) :: ·)
    | _, _ => return none

def bytesToStruct (h : Hook) (raw : Raw) (t : DwarfType) (fields : List StructField) :
    RecordM Reading := do
  match ← structFields types recur raw fields with
  | none => return .error
  | some read =>
    h.typed t .struct (.struct (read.map Prod.snd)) (.struct (read.map Prod.fst))

def bytesToPointer (h : Hook) (raw : Raw) (t : DwarfType) (target : TypeRef) : RecordM Reading := do
  let addr ← raw.uint 4
  match ← h.read (UInt32.ofNat addr) (UInt32.ofNat ((types target).size % 2 ^ 32).toNat) with
  | none => return .error
  | some bytes =>
    let r ← recur (.ofBytes bytes) target
    let dereferenced := if (types target).size = 0 then .nil else r.value.getD .nil
    h.typed t .pointer (.pointer r.typeId) (.reference dereferenced addr)

/-- The elements of an array; those that cannot be read are left out. -/
def arrayElems (raw : Raw) (elem : TypeRef) (from_ : Nat) : Nat → RecordM (List (Option ValueRecord))
  | 0 => return []
  | n + 1 => do
    let size := (types elem).size
    let part ← raw.sub (from_ * size) ((from_ + 1) * size)
    let r ← recur part elem
    return r.value :: (← arrayElems raw elem (from_ + 1) n)

def bytesToArray (h : Hook) (raw : Raw) (t : DwarfType) (elem : TypeRef) (count : Int) :
    RecordM Reading := do
  let elems ← arrayElems types recur raw elem 0 count.toNat
  h.typed t .array .none (.sequence elems false)

/-! ### Values of Rust -/

/-- The bytes of a string, one by one. -/
def stringBytes (h : Hook) (addr : Nat) (from_ : Nat) : Nat → RecordM Text
  | 0 => return []
  | n + 1 => do
    match ← h.read (UInt32.ofNat (addr + from_)) 1 with
    | some (b :: _) => return Char.ofNat b.toNat :: (← stringBytes h addr (from_ + 1) n)
    | _ => goPanic

def bytesToStringRust (h : Hook) (raw : Raw) (t : DwarfType) (fields : List StructField) :
    RecordM Reading := do
  match (← h.bytesToStruct types recur raw t fields).value with
  | some (.struct (.reference _ addr _ :: rest) _) =>
    match rest with
    | .int length _ :: _ =>
      let text ← stringBytes h addr 0 length.toNat
      h.typed t .string .none (.string text)
    | _ :: _ => return .error
    | [] => goPanic
  | some (.struct (_ :: _) _) => return .error
  | some (.struct [] _) => goPanic
  | _ => return .error

/-- The elements of a tuple; those that cannot be read are left out. -/
def tupleElems (raw : Raw) : List StructField → RecordM (List (Option ValueRecord))
  | [] => return []
  | field :: rest => do
    let part ← raw.sub field.byteOffset (field.byteOffset + (types field.type).size)
    let r ← recur part field.type
    return r.value :: (← tupleElems raw rest)

def bytesToTupleRust (h : Hook) (raw : Raw) (t : DwarfType) (fields : List StructField) :
    RecordM Reading := do
  let elems ← tupleElems types recur raw fields
  h.typed t .slice .none (.tuple elems)

/-- The elements behind a pointer, up to the first that cannot be read. -/
def elements (h : Hook) (addr : Nat) (elem : TypeRef) (from_ : Nat) :
    Nat → RecordM (List (Option ValueRecord) × Bool)
  | 0 => return ([], false)
  | n + 1 => do
    let size := ((types elem).byteSize % 2 ^ 32).toNat
    match ← h.read (UInt32.ofNat (addr + from_ * size)) (UInt32.ofNat size) with
    | none => return ([], true)
    | some bytes =>
      let r ← recur (.ofBytes bytes) elem
      if r.failed then return ([], true)
      else
        let (more, failed) ← elements h addr elem (from_ + 1) n
        return (r.value :: more, failed)

/-- A sequence of elements, with its type registered in front of them. -/
def sequence (h : Hook) (t : DwarfType) (addr : Nat) (elem : TypeRef) (length : Nat) :
    RecordM Reading := do
  let typeId ← typeIdOf h.module t.text .slice .none
  let (elems, failed) ← elements types recur h (addr % 2 ^ 32) elem 0 length
  let value := some (.sequence elems true typeId)
  return if failed then ⟨value, invalidTypeId, true⟩ else ⟨value, typeId, false⟩

def bytesToSliceRust (h : Hook) (raw : Raw) (t : DwarfType) (fields : List StructField) :
    RecordM Reading := do
  match (← h.bytesToStruct types recur raw t fields).value with
  | some (.struct [.reference _ addr _, .int length _] _) =>
    match fields.head?.map fun field => (types field.type).shape with
    | some (.ptr elem) => h.sequence types recur t addr elem (length % 2 ^ 32).toNat
    | _ => return .error
  | _ => return .error

def bytesToVecRust (h : Hook) (raw : Raw) (t : DwarfType) (fields : List StructField) :
    RecordM Reading := do
  match h.vecElem t.text with
  | none => return .error
  | some elem =>
    match (← h.bytesToStruct types recur raw t fields).value with
    -- the pointer is in the first field of the first field of the buffer
    | some (.struct [.struct (.struct (.struct unique _ :: _) _ :: _) _, length] _) =>
      match unique with
      | [] => goPanic
      | .struct [] _ :: _ => goPanic
      | .struct (.reference _ addr _ :: _) _ :: _ =>
        match length with
        | .int length _ => h.sequence types recur t addr elem (length % 2 ^ 32).toNat
        | _ => return .error
      | _ :: _ => return .error
    | _ => return .error

/-- The numbers of a sequence. -/
def limbs : List (Option ValueRecord) → Option (List Int)
  | [] => some []
  | some (.int i _) :: rest => (limbs rest).map (i :: ·)
  | _ :: _ => none

/-- The big-endian bytes of a number, without leading zeroes but for one byte. -/
def trimZeroes : Bytes → Bytes
  | 0 :: b :: rest => trimZeroes (b :: rest)
  | bytes => bytes

def bytesToRuintRust (h : Hook) (raw : Raw) (t : DwarfType) (fields : List StructField) :
    RecordM Reading := do
  match (← h.bytesToStruct types recur raw t fields).value with
  | some (.struct [.sequence elements _ _] _) =>
    match limbs elements with
    | none => return .error
    | some limbs =>
      let bytes := limbs.flatMap fun i => encode 8 (i % 2 ^ 64).toNat
      h.typed t .slice .none (.bigInt (trimZeroes bytes.reverse))
  | _ => return .error

/-- The hexadecimal digits of a byte. -/
def hexByte (b : Nat) : Text := [Nat.digitChar (b / 16), Nat.digitChar (b % 16)]

def bytesToAddressRust (h : Hook) (raw : Raw) (t : DwarfType) (fields : List StructField) :
    RecordM Reading := do
  match (← h.bytesToStruct types recur raw t fields).value with
  | some (.struct [.struct [.sequence elements _ _] _] _) =>
    match limbs elements with
    | none => return .error
    | some limbs =>
      h.typed t .string .none
        (.string ("0x".toList ++ limbs.flatMap fun i => hexByte (i % 256).toNat))
  | _ => return .error

/-- A structure, by the text of its type. -/
def bytesToStructRust (h : Hook) (raw : Raw) (t : DwarfType) (fields : List StructField) :
    RecordM Reading :=
  if t.text = "struct &str".toList then h.bytesToStringRust types recur raw t fields
  else if "struct (".toList.isPrefixOf t.text && ")".toList.isSuffixOf t.text then
    h.bytesToTupleRust types recur raw t fields
  else if "struct &[".toList.isPrefixOf t.text && "]".toList.isSuffixOf t.text then
    h.bytesToSliceRust types recur raw t fields
  else if "struct Vec<".toList.isPrefixOf t.text && ">".toList.isSuffixOf t.text then
    h.bytesToVecRust types recur raw t fields
  else if t.text = "struct Address".toList then h.bytesToAddressRust types recur raw t fields
  else if "struct Uint<".toList.isPrefixOf t.text && ">".toList.isSuffixOf t.text then
    h.bytesToRuintRust types recur raw t fields
  else h.bytesToStruct types recur raw t fields

end Composite

/-- Read a value of a type. -/
def bytesToValueRecord (h : Hook) (types : TypeRef → DwarfType) : Nat → Raw → TypeRef → RecordM Reading
  | 0, _, _ => throw .overflow
  | fuel + 1, raw, ref =>
    let t := types ref
    let recur := bytesToValueRecord h types fuel
    match t.shape with
    | .int => h.bytesToInt raw t
    | .uint => if t.text = "()".toList then h.bytesToVoidptr t else h.bytesToUint raw t
    | .bool => h.bytesToBool raw t
    | .float => h.bytesToFloat raw t
    | .struct fields => h.bytesToStructRust types recur raw t fields
    | .ptr target => h.bytesToPointer types recur raw t target
    | .array elem count => h.bytesToArray types recur raw t elem count
    | .other => return ⟨some .nil, 0, false⟩

/-- Where a variable is, unless its location is of a kind that is not supported. -/
def address (h : Hook) (locals : List UInt64) (frameBase : MemoryLocation) (v : VariableRecord) :
    RecordM (Option Nat) :=
  if v.location.typ = .directLocal then
    match locals[v.location.index]? with
    | none => goPanic
    | some x => return some (x.toNat % 2 ^ 32)
  else match frameBase.typ with
    | .local_ =>
      match locals[frameBase.index]? with
      | none => goPanic
      | some x => return some ((x.toNat + v.location.index) % 2 ^ 32)
    | .global =>
      match h.globals[frameBase.index]? with
      | none => goPanic
      | some x => return some (x.toNat % 2 ^ 32)
    | .operandStack => return none
    | .directLocal => return none

end Hook

end Interpreter
