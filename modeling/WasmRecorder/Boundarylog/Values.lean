import WasmRecorder.Lib.Strconv

/-!
# Boundary values

The typed values that cross a module's boundary and the two forms in which a
recording spells them.

* `RawValue` — a value as the trace carries it, a kind and a text.
* `RawValue.decode`, `decodeTuple` — reading recorded values at the types a signature
  gives. A tuple of the wrong length is an error, never truncated or padded
  (`decodeTuple_length`).
-/

namespace Boundarylog

/-- A Go string that holds decoded text. -/
abbrev Text := List Char

/-- The four numeric types. References and vectors never cross a recorded boundary. -/
inductive ScalarType where
  | i32
  | i64
  | f32
  | f64
  deriving DecidableEq, Repr

/-- The number of bits of a type. -/
def ScalarType.width : ScalarType → Nat
  | .i32 => 32
  | .i64 => 64
  | .f32 => 32
  | .f64 => 64

def parseScalarType (s : Text) : Option ScalarType :=
  if s = "i32".toList then some .i32
  else if s = "i64".toList then some .i64
  else if s = "f32".toList then some .f32
  else if s = "f64".toList then some .f64
  else none

/-- The value types of a WebAssembly signature. -/
inductive ValueType where
  | i32
  | i64
  | f32
  | f64
  | v128
  | funcref
  | externref
  deriving DecidableEq, Repr

def scalarTypeOf : ValueType → Option ScalarType
  | .i32 => some .i32
  | .i64 => some .i64
  | .f32 => some .f32
  | .f64 => some .f64
  | _ => none

/-- A boundary edge's parameter and result types, in order. -/
structure Signature where
  params : List ScalarType
  results : List ScalarType
  deriving DecidableEq, Repr

/-- The signature of a call that leaves no value behind. -/
def Signature.isEmpty (s : Signature) : Bool := s.params.isEmpty && s.results.isEmpty

/-- A value that crossed the boundary: its type and the word on the engine's stack. -/
structure Value where
  type : ScalarType
  bits : UInt64
  deriving DecidableEq, Repr

/-- Wrap a stack word. -/
def fromWazero (t : ScalarType) (raw : UInt64) : Value := ⟨t, raw⟩

/-- A value as a trace record spells it. -/
structure RawValue where
  kind : Text
  text : Text
  deriving DecidableEq, Repr

/-- Why recorded values could not be read at the declared types. -/
inductive ValueError where
  | wrongKind (v : RawValue) (t : ScalarType)
  | notInteger (v : RawValue) (t : ScalarType)
  | notFloat (v : RawValue) (t : ScalarType)
  /-- A bit pattern tagged with the other float width. -/
  | floatWidth (text : Text) (t : ScalarType)
  /-- A bit pattern with the wrong number of digits. -/
  | floatDigits (text : Text) (t : ScalarType)
  | floatBits (text : Text)
  /-- A tuple whose length is not the signature's. -/
  | arity (label : Text) (recorded declared : Nat)
  | slot (label : Text) (slot : Nat) (e : ValueError)
  deriving DecidableEq, Repr

/-- The width tag and the number of digits of the exact-bits float spelling. -/
def floatBitsPrefix : ScalarType → Option (Text × Nat)
  | .f32 => some ("f32:0x".toList, 8)
  | .f64 => some ("f64:0x".toList, 16)
  | _ => none

/-- Recognise the exact-bits spelling of a float; `ok none` is "some other spelling". -/
def parseFloatBits (text : Text) (t : ScalarType) : Except ValueError (Option UInt64) :=
  match floatBitsPrefix t with
  | none => .ok none
  | some (tag, nibbles) =>
    if ¬ "f32:0x".toList.isPrefixOf text ∧ ¬ "f64:0x".toList.isPrefixOf text then .ok none
    else if ¬ tag.isPrefixOf text then .error (.floatWidth text t)
    else
      let digits := text.drop tag.length
      if digits.length ≠ nibbles then .error (.floatDigits text t)
      else match Strconv.parseHex digits 64 with
        | some bits => .ok (some (UInt64.ofNat bits))
        | none => .error (.floatBits text)

/-- The stack word of an integer at an integer type: 32-bit values are truncated and
stored without sign extension. -/
def ScalarType.integerBits (t : ScalarType) (n : Int) : UInt64 :=
  if t = .i32 then UInt64.ofNat (n % 2 ^ 32).toNat else UInt64.ofNat (n % 2 ^ 64).toNat

def RawValue.decodeInteger (r : RawValue) (t : ScalarType) : Except ValueError Value :=
  if r.kind = "Int".toList ∨ r.kind = "Raw".toList then
    let text := Strconv.trimSpace r.text
    match Strconv.parseInt text 64 with
    | some n => .ok ⟨t, t.integerBits n⟩
    | none =>
      -- the decimal of an unsigned 64-bit value may not fit a signed one
      match Strconv.parseUint text 64 with
      | some u => .ok ⟨t, t.integerBits u⟩
      | none => .error (.notInteger r t)
  else .error (.wrongKind r t)

def RawValue.decodeFloat (r : RawValue) (t : ScalarType) : Except ValueError Value :=
  if r.kind ≠ "Float".toList then .error (.wrongKind r t)
  else
    let text := Strconv.trimSpace r.text
    match parseFloatBits text t with
    | .error e => .error e
    | .ok (some bits) => .ok ⟨t, bits⟩
    | .ok none =>
      match Strconv.parseFloat text with
      | none => .error (.notFloat r t)
      | some f =>
        if t = .f32 then .ok ⟨t, UInt64.ofNat (Strconv.float64To32 f)⟩
        else .ok ⟨t, UInt64.ofNat f⟩

/-- Read a recorded value at the type its slot has in the signature. -/
def RawValue.decode (r : RawValue) : ScalarType → Except ValueError Value
  | .i32 => r.decodeInteger .i32
  | .i64 => r.decodeInteger .i64
  | .f32 => r.decodeFloat .f32
  | .f64 => r.decodeFloat .f64

/-- The slots of a tuple from slot `i` on. -/
def decodeSlots (label : Text) : Nat → List RawValue → List ScalarType →
    Except ValueError (List Value)
  | i, r :: rs, t :: ts =>
    match r.decode t with
    | .error e => .error (.slot label i e)
    | .ok v =>
      match decodeSlots label (i + 1) rs ts with
      | .error e => .error e
      | .ok vs => .ok (v :: vs)
  | _, _, _ => .ok []

/-- Read a recorded tuple at a signature's type list. -/
def decodeTuple (label : Text) (raws : List RawValue) (types : List ScalarType) :
    Except ValueError (List Value) :=
  if raws.length ≠ types.length then .error (.arity label raws.length types.length)
  else decodeSlots label 0 raws types

theorem decodeSlots_length {label : Text} :
    ∀ {i : Nat} {raws : List RawValue} {types : List ScalarType} {vs : List Value},
      raws.length = types.length → decodeSlots label i raws types = .ok vs →
        vs.length = types.length
  | _, [], [], _, _, h => by
    simp only [decodeSlots, Except.ok.injEq] at h
    rw [← h]
    rfl
  | i, r :: rs, t :: ts, vs, hlen, h => by
    rw [decodeSlots] at h
    split at h
    · cases h
    · split at h
      · cases h
      · next vs' hvs =>
        cases h
        rw [List.length_cons, List.length_cons,
          decodeSlots_length (by simpa using hlen) hvs]

/-- A tuple that is read has as many values as the recording spells and as the
signature declares. -/
theorem decodeTuple_length {label : Text} {raws : List RawValue} {types : List ScalarType}
    {vs : List Value} (h : decodeTuple label raws types = .ok vs) :
    raws.length = types.length ∧ vs.length = types.length := by
  rw [decodeTuple] at h
  split at h
  · cases h
  · next hlen =>
    rw [ne_eq, not_not] at hlen
    exact ⟨hlen, decodeSlots_length hlen h⟩

-- A negative 32-bit value is stored without sign extension.
example : RawValue.decode ⟨"Int".toList, "-1".toList⟩ .i32 = .ok ⟨.i32, 0xffffffff⟩ := by
  decide +kernel

end Boundarylog
