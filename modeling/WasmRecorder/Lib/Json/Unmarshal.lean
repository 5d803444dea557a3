import WasmRecorder.Lib.Json.Parser
import WasmRecorder.Lib.Strconv

/-!
# Decoding JSON values the way `encoding/json` does

`unquote` reads the body of a string literal as characters: escapes are resolved,
surrogate pairs are joined, and every byte that is not part of a well-formed UTF-8
sequence, like every lone surrogate, becomes U+FFFD.

The `into…` functions store a value into a destination that already holds one, which
is how `json.Unmarshal` fills a struct: `null` leaves a non-pointer alone and clears a
pointer or a slice, a member whose name is no field is skipped, a name matches a field
exactly or, failing that, up to case, and a value of the wrong kind or out of range is
an error. An error anywhere makes the whole call an error, so nothing is said about
what a failed call leaves behind.

* `intoFields_head` — what a field holds depends on the members of its name alone.
-/

namespace Json

/-! ### Strings -/

/-- A piece of a string body: a character, or the code unit of a `\u` escape. -/
inductive Piece where
  | char (c : Char)
  | unit (n : Nat)

def hexValue (c : UInt8) : Nat :=
  if isDigit c then c.toNat - 0x30
  else if 0x61 ≤ c then c.toNat - 0x61 + 10
  else c.toNat - 0x41 + 10

/-- U+FFFD. -/
def replacement : Char := Char.ofNat 0xfffd

/-- The character a simple escape stands for. -/
def escapeChar (c : UInt8) : Char :=
  if c = 0x62 then Char.ofNat 0x08
  else if c = 0x66 then Char.ofNat 0x0c
  else if c = 0x6e then Char.ofNat 0x0a
  else if c = 0x72 then Char.ofNat 0x0d
  else if c = 0x74 then Char.ofNat 0x09
  else Char.ofNat c.toNat

/-- A continuation byte of UTF-8. -/
def isTail (c : UInt8) : Bool := 0x80 ≤ c ∧ c ≤ 0xbf

/-- `utf8.DecodeRune`: the character in front of the text and its width. A byte that
starts no well-formed sequence is a replacement character of width one. -/
def decodeRune : Bytes → Char × Nat
  | [] => (replacement, 0)
  | a :: r =>
    if a < 0x80 then (Char.ofNat a.toNat, 1)
    else if 0xc2 ≤ a ∧ a ≤ 0xdf then
      match r with
      | b :: _ => if isTail b then (Char.ofNat ((a.toNat - 0xc0) * 64 + (b.toNat - 0x80)), 2)
          else (replacement, 1)
      | _ => (replacement, 1)
    else if 0xe0 ≤ a ∧ a ≤ 0xef then
      match r with
      | b :: c :: _ =>
        if isTail b ∧ isTail c ∧ (a = 0xe0 → 0xa0 ≤ b) ∧ (a = 0xed → b ≤ 0x9f) then
          (Char.ofNat ((a.toNat - 0xe0) * 4096 + (b.toNat - 0x80) * 64 + (c.toNat - 0x80)), 3)
        else (replacement, 1)
      | _ => (replacement, 1)
    else if 0xf0 ≤ a ∧ a ≤ 0xf4 then
      match r with
      | b :: c :: d :: _ =>
        if isTail b ∧ isTail c ∧ isTail d ∧ (a = 0xf0 → 0x90 ≤ b) ∧ (a = 0xf4 → b ≤ 0x8f) then
          (Char.ofNat ((a.toNat - 0xf0) * 262144 + (b.toNat - 0x80) * 4096
            + (c.toNat - 0x80) * 64 + (d.toNat - 0x80)), 4)
        else (replacement, 1)
      | _ => (replacement, 1)
    else (replacement, 1)

/-- The first piece of a body and its width. -/
def firstPiece : Bytes → Piece × Nat
  | 0x5c :: 0x75 :: d₁ :: d₂ :: d₃ :: d₄ :: _ =>
    (.unit (hexValue d₁ * 4096 + hexValue d₂ * 256 + hexValue d₃ * 16 + hexValue d₄), 6)
  | 0x5c :: c :: _ => (.char (escapeChar c), 2)
  | b => (.char (decodeRune b).1, (decodeRune b).2)

/-- Cut a body into pieces. `skip` counts the bytes of the current piece still to
pass over. -/
def pieces : Nat → Bytes → List Piece
  | _, [] => []
  | skip + 1, _ :: r => pieces skip r
  | 0, c :: r => (firstPiece (c :: r)).1 :: pieces ((firstPiece (c :: r)).2 - 1) r

def isHighSurrogate (n : Nat) : Bool := 0xd800 ≤ n ∧ n < 0xdc00

def isLowSurrogate (n : Nat) : Bool := 0xdc00 ≤ n ∧ n < 0xe000

/-- Join adjacent surrogate halves; a half without its other half is a replacement. -/
def joinPieces : List Piece → List Char
  | [] => []
  | .char c :: ps => c :: joinPieces ps
  | .unit n :: ps =>
    match ps with
    | .unit m :: ps' =>
      if isHighSurrogate n ∧ isLowSurrogate m then
        Char.ofNat ((n - 0xd800) * 1024 + (m - 0xdc00) + 0x10000) :: joinPieces ps'
      else
        (if isHighSurrogate n ∨ isLowSurrogate n then replacement else Char.ofNat n)
          :: joinPieces (.unit m :: ps')
    | ps =>
      (if isHighSurrogate n ∨ isLowSurrogate n then replacement else Char.ofNat n)
        :: joinPieces ps

/-- The characters a string literal with body `b` denotes. -/
def unquote (b : Bytes) : List Char := joinPieces (pieces 0 b)

/-- The UTF-8 encoding of a text, `[]byte(s)` in Go. -/
def encode (s : List Char) : Bytes := s.flatMap String.utf8EncodeChar

/-- The body that spells a text of printable ASCII characters. -/
def escapeAscii : List Char → Bytes
  | [] => []
  | c :: s =>
    if c = '"' ∨ c = '\\' then backslash :: c.toUInt8 :: escapeAscii s
    else c.toUInt8 :: escapeAscii s

/-! ### Destinations -/

/-- Why a value could not be stored. -/
inductive UnmarshalError where
  /-- The text is no JSON document. -/
  | syntaxError
  /-- The value has the wrong kind or does not fit its destination. -/
  | typeError
  deriving DecidableEq, Repr

abbrev Decode (α : Type) := Except UnmarshalError α

/-- A string destination. -/
def intoString (old : List Char) : Value → Decode (List Char)
  | .null => .ok old
  | .string b => .ok (unquote b)
  | _ => .error .typeError

def intoBool (old : Bool) : Value → Decode Bool
  | .null => .ok old
  | .bool b => .ok b
  | _ => .error .typeError

/-- The characters of a number literal. -/
def lexemeChars (l : Bytes) : List Char := l.map fun c => Char.ofNat c.toNat

/-- An unsigned integer destination of the given width. -/
def intoUint (bits : Nat) (old : Nat) : Value → Decode Nat
  | .null => .ok old
  | .number l =>
    match Strconv.parseUint (lexemeChars l) bits with
    | some n => .ok n
    | none => .error .typeError
  | _ => .error .typeError

/-- A signed integer destination of the given width. -/
def intoInt (bits : Nat) (old : Int) : Value → Decode Int
  | .null => .ok old
  | .number l =>
    match Strconv.parseInt (lexemeChars l) bits with
    | some n => .ok n
    | none => .error .typeError
  | _ => .error .typeError

/-- A `json.RawMessage` destination keeps whatever value stands there. -/
def intoRaw (_old : Option Value) (v : Value) : Decode (Option Value) := .ok (some v)

mutual

/-- The text of a value without blanks, which is how a raw message is marshalled. -/
def compact : Value → Bytes
  | .null => nullLexeme
  | .bool true => trueLexeme
  | .bool false => falseLexeme
  | .number l => l
  | .string b => quote :: b ++ [quote]
  | .array vs => lbracket :: compactElems vs ++ [rbracket]
  | .object ms => lbrace :: compactMembers ms ++ [rbrace]

def compactElems : List Value → Bytes
  | [] => []
  | [v] => compact v
  | v :: vs => compact v ++ comma :: compactElems vs

def compactMembers : List (Bytes × Value) → Bytes
  | [] => []
  | [(k, v)] => quote :: k ++ quote :: colon :: compact v
  | (k, v) :: ms => quote :: k ++ quote :: colon :: compact v ++ comma :: compactMembers ms

end

/-- A pointer destination: `null` clears it, anything else is stored into what it
points to, a fresh zero value if it was nil. -/
def intoPtr {α : Type} (into : α → Value → Decode α) (zero : α) (old : Option α) :
    Value → Decode (Option α)
  | .null => .ok none
  | v => (into (old.getD zero) v).map some

/-- A slice destination. `none` is the nil slice. -/
def intoSlice {α : Type} (into : α → Value → Decode α) (zero : α) (_old : Option (List α)) :
    Value → Decode (Option (List α))
  | .null => .ok none
  | .array vs => (vs.mapM (into zero)).map some
  | _ => .error .typeError

/-- Case folding as far as it can produce an ASCII letter. -/
def foldChar (c : Char) : Char :=
  if c.toNat = 0x212a then 'K' else if c.toNat = 0x17f then 'S' else c.toUpper

/-- The field a member name refers to. -/
def findField {α : Type} (fields : List (List Char × α)) (key : List Char) : Option α :=
  match fields.lookup key with
  | some f => some f
  | none => (fields.map fun f => (f.1.map foldChar, f.2)).lookup (key.map foldChar)

/-- Store the members of an object into the fields of a struct, one after another. -/
def intoFields {S : Type} (fields : List (List Char × (S → Value → Decode S))) :
    S → List (Bytes × Value) → Decode S
  | s, [] => .ok s
  | s, (k, v) :: ms =>
    match findField fields (unquote k) with
    | none => intoFields fields s ms
    | some into =>
      match into s v with
      | .ok s' => intoFields fields s' ms
      | .error e => .error e

/-- A struct destination. -/
def intoStruct {S : Type} (fields : List (List Char × (S → Value → Decode S))) (old : S) :
    Value → Decode S
  | .null => .ok old
  | .object ms => intoFields fields old ms
  | _ => .error .typeError

/-- `json.Unmarshal` of a text into a zeroed destination. -/
def unmarshal {α : Type} (into : α → Value → Decode α) (zero : α) (b : Bytes) : Decode α :=
  match parse b with
  | none => .error .syntaxError
  | some v => into zero v

theorem unmarshal_of_renders {α : Type} {into : α → Value → Decode α} {zero : α} {v : Value}
    {b : Bytes} (h : Renders (.value v) b) : unmarshal into zero b = into zero v := by
  rw [unmarshal, h.parse]

theorem unmarshal_of_doc {α : Type} {into : α → Value → Decode α} {zero : α} {v : Value}
    {b : Bytes} (h : RendersDoc v b) : unmarshal into zero b = into zero v := by
  rw [unmarshal, parse_eq_some_iff.mpr h]

/-! ### One field of a struct -/

theorem findField_eq {α : Type} {fields : List (List Char × α)}
    (hnames : (fields.map fun f => f.1.map foldChar).Nodup) (key : List Char) :
    findField fields key =
      (fields.map fun f => (f.1.map foldChar, f.2)).lookup (key.map foldChar) := by
  rw [findField]
  cases hexact : fields.lookup key with
  | none => rfl
  | some f =>
    symm
    dsimp only
    induction fields with
    | nil => cases hexact
    | cons p fields ih =>
      obtain ⟨name, g⟩ := p
      rw [List.map_cons, List.nodup_cons] at hnames
      rw [List.lookup_cons] at hexact
      rw [List.map_cons, List.lookup_cons]
      by_cases hkey : key = name
      · rw [hkey, beq_self_eq_true] at hexact
        rw [hkey, beq_self_eq_true]
        exact hexact
      · rw [beq_eq_false_iff_ne.mpr hkey] at hexact
        obtain ⟨l₁, l₂, hmem, -⟩ := List.lookup_eq_some_iff.mp hexact
        have hfold : key.map foldChar ≠ name.map foldChar := by
          intro h
          refine hnames.1 (h ▸ List.mem_map.mpr ⟨(key, f), ?_, rfl⟩)
          rw [hmem]
          exact List.mem_append_right _ List.mem_cons_self
        rw [beq_eq_false_iff_ne.mpr hfold]
        exact ih hnames.2 hexact

/-- Store the members of one name into one field, one after another. -/
def storeMembers {T : Type} (name : List Char) (into : T → Value → Decode T) :
    T → List (Bytes × Value) → Decode T
  | t, [] => .ok t
  | t, (k, v) :: ms =>
    if (unquote k).map foldChar = name.map foldChar then
      match into t v with
      | .ok t' => storeMembers name into t' ms
      | .error e => .error e
    else storeMembers name into t ms

theorem intoFields_head {S T : Type} (get : S → T) {name : List Char}
    {set : S → Value → Decode S} {into : T → Value → Decode T}
    {rest : List (List Char × (S → Value → Decode S))}
    (hnames : (((name, set) :: rest).map fun f => f.1.map foldChar).Nodup)
    (hset : ∀ s v s', set s v = .ok s' → into (get s) v = .ok (get s'))
    (hrest : ∀ f ∈ rest, ∀ s v s', f.2 s v = .ok s' → get s' = get s) {s s' : S}
    {ms : List (Bytes × Value)} (h : intoFields ((name, set) :: rest) s ms = .ok s') :
    storeMembers name into (get s) ms = .ok (get s') := by
  induction ms generalizing s with
  | nil =>
    cases h
    rfl
  | cons m ms ih =>
    obtain ⟨k, v⟩ := m
    rw [intoFields, findField_eq hnames, List.map_cons, List.lookup_cons] at h
    rw [storeMembers]
    by_cases hk : (unquote k).map foldChar = name.map foldChar
    · rw [hk, beq_self_eq_true] at h
      dsimp only at h
      rw [if_pos hk]
      cases hstore : set s v with
      | error e =>
        rw [hstore] at h
        cases h
      | ok s₁ =>
        rw [hstore] at h
        rw [hset s v s₁ hstore]
        exact ih h
    · rw [beq_eq_false_iff_ne.mpr hk] at h
      rw [if_neg hk]
      dsimp only at h
      cases hother : (rest.map fun f => (f.1.map foldChar, f.2)).lookup ((unquote k).map foldChar) with
      | none =>
        rw [hother] at h
        exact ih h
      | some f =>
        rw [hother] at h
        dsimp only at h
        cases hstore : f s v with
        | error e =>
          rw [hstore] at h
          cases h
        | ok s₁ =>
          rw [hstore] at h
          obtain ⟨l₁, l₂, hmem, -⟩ := List.lookup_eq_some_iff.mp hother
          have hin : ((unquote k).map foldChar, f) ∈
              rest.map fun f => (f.1.map foldChar, f.2) := by
            rw [hmem]
            exact List.mem_append_right _ List.mem_cons_self
          obtain ⟨p, hp, hpf⟩ := List.mem_map.mp hin
          have hf : p.2 = f := congrArg Prod.snd hpf
          rw [← hrest p hp s v s₁ (hf ▸ hstore)]
          exact ih h

end Json
