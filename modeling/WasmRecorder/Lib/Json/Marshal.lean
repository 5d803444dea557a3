import WasmRecorder.Lib.Json.Unmarshal

/-!
# Marshalling JSON

The writing side of `encoding/json`: how a text, an integer and a struct are spelled.

* `escape` — the body of a string literal.
* `Value.ofText`, `Value.ofInt`, `Value.ofFields` — the values that are written.
-/

namespace Json

/-! ### Strings -/

/-- The lower-case hexadecimal digit of `n < 16`. -/
def hexDigit (n : Nat) : UInt8 := if n < 10 then UInt8.ofNat (0x30 + n) else UInt8.ofNat (0x57 + n)

/-- The escape of a code unit by its four hexadecimal digits. -/
def unicodeEscape (n : Nat) : Bytes :=
  [backslash, 0x75, hexDigit (n / 4096 % 16), hexDigit (n / 256 % 16), hexDigit (n / 16 % 16),
    hexDigit (n % 16)]

/-- The characters with an escape of two bytes, and its second byte. -/
def shortEscapes : List (Char × UInt8) :=
  [('"', quote), ('\\', backslash), (Char.ofNat 0x08, 0x62), (Char.ofNat 0x0c, 0x66),
    ('\n', 0x6e), ('\r', 0x72), ('\t', 0x74)]

/-- What the encoder writes for one character. Control characters, the three characters that
matter to HTML and the two line separators are written as escapes. -/
def escapeRune (c : Char) : Bytes :=
  match shortEscapes.lookup c with
  | some e => [backslash, e]
  | none =>
    if c.toNat < 0x20 ∨ c ∈ ['<', '>', '&', Char.ofNat 0x2028, Char.ofNat 0x2029] then
      unicodeEscape c.toNat
    else String.utf8EncodeChar c

/-- The body of the string literal the encoder writes for a text. -/
def escape (s : List Char) : Bytes := s.flatMap escapeRune

/-! ### Numbers -/

/-- The bytes of an ASCII text. -/
def lexeme (s : List Char) : Bytes := s.map Char.toUInt8

/-! ### Values -/

/-- The literal of a text. -/
def Value.ofText (s : List Char) : Value := .string (escape s)

/-- The literal of an integer. -/
def Value.ofInt (n : Int) : Value := .number (lexeme (Strconv.formatInt n))

/-- The text of a struct: its fields in order, under their names. -/
def Value.ofFields (fields : List (List Char × Value)) : Value :=
  .object (fields.map fun f => (escape f.1, f.2))

end Json
