import WasmRecorder.Interpreter.Succeeding

/-!
# Texts and sequences

A `&str`, a slice and a vector are a pointer and a length. The readers go through the memory behind
the pointer, byte by byte or element by element, with the accessor `Memory().Read`. That accessor
panics for a range that ends where a memory of 4 GiB ends, so a reader never goes on at address 0.

* `stringBytes_inside`, `stringBytes_atEnd` — the loop over the bytes of a text.
* `elements_eq_exact`, `elements_atEnd` — the loop over the elements.
* `sequences_exact_iff` — **when texts and elements are those of the program**.

The text is built with one character for every byte, so bytes of 128 and more become two
(`misread_texts`).
-/

namespace Interpreter

open LittleEndian Stateful Slice
open Wasm (MemoryInstance)

namespace Hook

theorem bind_of_ok {α β : Type} {x : RecordM α} {f : α → RecordM β} {r r₁ : Recorder} {v : α}
    (hx : x r = .ok v r₁) : (x >>= f) r = f v r₁ := by
  change EStateM.bind x f r = _
  rw [EStateM.bind, hx]

/-! ### The bytes of a text -/

section Text

variable {h : Hook} {m : MemoryInstance}

theorem read_eq (hmemory : h.memory = some m) (hsize : m.buffer.length ≤ 2 ^ 32)
    {offset byteCount : Nat} (hoffset : offset < 2 ^ 32) (hcount : byteCount < 2 ^ 32) :
    h.read (UInt32.ofNat offset) (UInt32.ofNat byteCount) =
      if offset + byteCount ≤ m.buffer.length then
        if offset + byteCount = 2 ^ 32 then goPanic
        else pure (some ((m.buffer.drop offset).take byteCount))
      else pure none := by
  rw [read, hmemory]
  dsimp only
  rw [MemoryInstance.read, MemoryInstance.readLe_eq hsize, UInt32.toNat_ofNat_of_lt' hoffset,
    UInt32.toNat_ofNat_of_lt' hcount, slice, List.drop_take, Nat.add_sub_cancel_left]
  split_ifs <;> rfl

theorem read_of_inside (hmemory : h.memory = some m) (hsize : m.buffer.length ≤ 2 ^ 32)
    {offset byteCount : Nat} (hin : offset + byteCount ≤ m.buffer.length)
    (hend : offset + byteCount < 2 ^ 32) :
    h.read (UInt32.ofNat offset) (UInt32.ofNat byteCount) =
      pure (some ((m.buffer.drop offset).take byteCount)) := by
  rw [read_eq hmemory hsize (by omega) (by omega), if_pos hin, if_neg hend.ne]

theorem read_of_outside (hmemory : h.memory = some m) (hsize : m.buffer.length ≤ 2 ^ 32)
    {offset byteCount : Nat} (hoffset : offset < 2 ^ 32) (hcount : byteCount < 2 ^ 32)
    (hout : m.buffer.length < offset + byteCount) :
    h.read (UInt32.ofNat offset) (UInt32.ofNat byteCount) = pure none := by
  rw [read_eq hmemory hsize hoffset hcount, if_neg (Nat.not_le.mpr hout)]

/-- The end of the range is 0 in 32 bits, where it begins is not. -/
theorem read_atEnd (hmemory : h.memory = some m) (hlen : m.buffer.length = 2 ^ 32)
    {offset byteCount : Nat} (hoffset : offset < 2 ^ 32) (hcount : byteCount < 2 ^ 32)
    (hend : offset + byteCount = 2 ^ 32) :
    h.read (UInt32.ofNat offset) (UInt32.ofNat byteCount) = goPanic := by
  rw [read_eq hmemory hlen.le hoffset hcount, if_pos (by omega), if_pos hend]

/-- The characters the reader makes of some bytes. -/
def charsOf (bytes : Bytes) : Text := bytes.map fun b => Char.ofNat b.toNat

theorem stringBytes_succ (hmemory : h.memory = some m) (hsize : m.buffer.length ≤ 2 ^ 32)
    {addr from_ n : Nat} (hin : addr + from_ + 1 ≤ m.buffer.length)
    (hend : addr + from_ + 1 < 2 ^ 32) :
    stringBytes h addr from_ (n + 1) = do
      return charsOf ((m.buffer.drop (addr + from_)).take 1) ++
        (← stringBytes h addr (from_ + 1) n) := by
  have hread : h.read (UInt32.ofNat (addr + from_)) 1 = _ := read_of_inside hmemory hsize hin hend
  rw [stringBytes, hread, pure_bind]
  obtain ⟨b, hb⟩ : ∃ b, (m.buffer.drop (addr + from_)).take 1 = [b] := by
    refine List.length_eq_one_iff.mp ?_
    rw [List.length_take, List.length_drop]
    omega
  rw [hb]
  rfl

theorem stringBytes_inside (hmemory : h.memory = some m) (hsize : m.buffer.length ≤ 2 ^ 32)
    {addr from_ n : Nat} (hin : addr + from_ + n ≤ m.buffer.length)
    (hend : addr + from_ + n < 2 ^ 32) :
    stringBytes h addr from_ n = pure (charsOf ((m.buffer.drop (addr + from_)).take n)) := by
  induction n generalizing from_ with
  | zero => rfl
  | succ n ih =>
    rw [stringBytes_succ hmemory hsize (by omega) (by omega), ih (by omega) (by omega), pure_bind]
    congr 1
    rw [charsOf, charsOf, charsOf, ← List.map_append, Nat.add_comm n 1, ← Nat.add_assoc,
      List.take_add, List.drop_drop]

/-- The last byte of a memory of 4 GiB is not read. -/
theorem stringBytes_atEnd (hmemory : h.memory = some m) (hlen : m.buffer.length = 2 ^ 32)
    {addr from_ n : Nat} (hpos : 0 < n) (hend : addr + from_ + n = 2 ^ 32) :
    stringBytes h addr from_ n = goPanic := by
  induction n generalizing from_ with
  | zero => exact absurd hpos (lt_irrefl 0)
  | succ n ih =>
    rcases Nat.eq_zero_or_pos n with rfl | hn
    · have hread : h.read (UInt32.ofNat (addr + from_)) 1 = goPanic :=
        read_atEnd hmemory hlen (by omega) (by decide) hend
      rw [stringBytes, hread]
      rfl
    · rw [stringBytes_succ hmemory hlen.le (by omega) (by omega), ih hn (by omega)]
      rfl

/-- The bytes of a text, in UTF-8. -/
def utf8 (text : Text) : Bytes := text.flatMap String.utf8EncodeChar

theorem utf8EncodeChar_ofNat (b : UInt8) :
    (b.toNat < 128 → String.utf8EncodeChar (Char.ofNat b.toNat) = [b]) ∧
      (128 ≤ b.toNat → (String.utf8EncodeChar (Char.ofNat b.toNat)).length = 2) := by
  have hb := b.toNat_lt
  have hval : (Char.ofNat b.toNat).val.toNat = b.toNat := by
    have hvalid : b.toNat.isValidChar := .inl (by omega)
    rw [Char.ofNat, dif_pos hvalid]
    rfl
  constructor
  · intro hlow
    rw [String.utf8EncodeChar, hval, if_pos (by omega), UInt8.ofNat_toNat]
  · intro hhigh
    rw [String.utf8EncodeChar, hval, if_neg (by omega), if_pos (by omega)]
    rfl

theorem length_utf8_charsOf (bytes : Bytes) : bytes.length ≤ (utf8 (charsOf bytes)).length := by
  induction bytes with
  | nil => exact le_refl 0
  | cons b rest ih =>
    change rest.length + 1 ≤ (String.utf8EncodeChar (Char.ofNat b.toNat) ++ utf8 (charsOf rest)).length
    rw [List.length_append]
    rcases Nat.lt_or_ge b.toNat 128 with hb | hb
    · rw [(utf8EncodeChar_ofNat b).1 hb, List.length_singleton]
      omega
    · rw [(utf8EncodeChar_ofNat b).2 hb]
      omega

theorem utf8_charsOf_iff (bytes : Bytes) :
    utf8 (charsOf bytes) = bytes ↔ ∀ b ∈ bytes, b.toNat < 128 := by
  induction bytes with
  | nil => exact iff_of_true rfl fun b hb => absurd hb List.not_mem_nil
  | cons b rest ih =>
    rw [List.forall_mem_cons, ← ih]
    change String.utf8EncodeChar (Char.ofNat b.toNat) ++ utf8 (charsOf rest) = b :: rest ↔ _
    rcases Nat.lt_or_ge b.toNat 128 with hb | hb
    · rw [(utf8EncodeChar_ofNat b).1 hb, List.singleton_append, List.cons_inj_right]
      exact ⟨fun h => ⟨hb, h⟩, fun h => h.2⟩
    · -- there is one byte too many
      refine iff_of_false (fun heq => ?_) fun h => absurd h.1 (Nat.not_lt.mpr hb)
      have hlength := congrArg List.length heq
      rw [List.length_append, (utf8EncodeChar_ofNat b).2 hb, List.length_cons] at hlength
      have := length_utf8_charsOf rest
      omega

end Text

/-! ### A `&str` -/

/-- A number without sign of some bytes. -/
def IsUint (t : DwarfType) (size : Nat) : Prop :=
  t.shape = .uint ∧ t.byteSize = size ∧ t.size = size ∧ t.text ≠ "()".toList

/-- The type of a `&str`: a pointer to bytes, and a length. -/
structure IsStr (types : TypeRef → DwarfType) (ref : TypeRef) : Prop where
  text : (types ref).text = "struct &str".toList
  fields : ∃ first second data length byte,
    (types ref).shape = .struct [⟨first, 0, data⟩, ⟨second, 4, length⟩] ∧
    (types data).shape = .ptr byte ∧ (types data).size = 4 ∧ IsUint (types byte) 1 ∧
    IsUint (types length) 4

/-- A pointer and a length, in memory. -/
def header (addr length : Nat) : Raw := .ofBytes (encode 4 addr ++ encode 4 length)

section Str

variable {h : Hook} {m : MemoryInstance} {types : TypeRef → DwarfType} {fuel : Nat}

theorem succeeds_isUint (fuel : Nat) {ref : TypeRef} {size n : Nat} (huint : IsUint (types ref) size)
    (hsize : size = 1 ∨ size = 4) (raw : Raw) (hlength : size ≤ raw.length)
    (hn : decode (raw.bytes.take size) = n) :
    Succeeds (bytesToValueRecord h types (fuel + 1) raw ref) fun r =>
      ∃ typeId, r = ⟨some (.int n typeId), typeId, false⟩ := by
  obtain ⟨hshape, hbytes, -, htext⟩ := huint
  rw [bytesToValueRecord, hshape]
  dsimp only
  rw [if_neg htext, bytesToUint, hbytes, if_pos (by omega), Int.toNat_natCast]
  refine (succeeds_uint hlength).bind ?_
  rintro m rfl
  have hsigned : signed 8 n = n := by
    have hlt := decode_lt (raw.bytes.take size)
    have hle : (raw.bytes.take size).length ≤ 4 := by
      rw [List.length_take]
      omega
    have hpow : 256 ^ (raw.bytes.take size).length ≤ 256 ^ 4 := Nat.pow_le_pow_right (by decide) hle
    rw [signed, if_pos (by omega)]
  rw [hn, hsigned]
  exact succeeds_typed

/-- What the pointer does with the byte that it is followed to. -/
def followed (h : Hook) (types : TypeRef → DwarfType) (fuel : Nat) (ref byte : TypeRef) (a : Nat) :
    Option Bytes → RecordM Reading
  | none => return .error
  | some bytes => do
    let r ← bytesToValueRecord h types fuel (.ofBytes bytes) byte
    h.typed (types ref) .pointer (.pointer r.typeId) (.reference (r.value.getD .nil) a)

theorem bytesToValueRecord_bytePointer (fuel : Nat) {ref byte : TypeRef}
    (hptr : (types ref).shape = .ptr byte) (hbyte : IsUint (types byte) 1) (raw : Raw)
    (hlength : 4 ≤ raw.length) {a : Nat} (ha : decode (raw.bytes.take 4) = a) :
    bytesToValueRecord h types (fuel + 1) raw ref =
      h.read (UInt32.ofNat a) (UInt32.ofNat 1) >>= followed h types fuel ref byte a := by
  have hone : (((1 : Nat) : Int) % 2 ^ 32).toNat = 1 := rfl
  rw [bytesToValueRecord, hptr]
  dsimp only
  rw [bytesToPointer, hbyte.2.2.1, hone, Raw.uint, if_pos hlength, pure_bind, ha]
  congr 1

theorem succeeds_bytePointer (fuel : Nat) (hmemory : h.memory = some m)
    (hsize : m.buffer.length ≤ 2 ^ 32) {ref byte : TypeRef} (hptr : (types ref).shape = .ptr byte)
    (hbyte : IsUint (types byte) 1) (raw : Raw) (hlength : 4 ≤ raw.length) {a : Nat}
    (ha : decode (raw.bytes.take 4) = a) (hend : a + 1 < 2 ^ 32 ∨ m.buffer.length ≤ a)
    (ha' : a < 2 ^ 32) :
    Succeeds (bytesToValueRecord h types (fuel + 2) raw ref) fun r =>
      (a < m.buffer.length → ∃ d typeId, r = ⟨some (.reference d a typeId), typeId, false⟩) ∧
        (m.buffer.length ≤ a → r = .error) := by
  rw [bytesToValueRecord_bytePointer (fuel + 1) hptr hbyte raw hlength ha]
  by_cases hin : a < m.buffer.length
  · have hlen : ((m.buffer.drop a).take 1).length = 1 := by
      rw [List.length_take, List.length_drop]
      omega
    rw [read_of_inside hmemory hsize hin (by omega), pure_bind]
    refine (succeeds_isUint fuel hbyte (.inl rfl) _ (by exact hlen.ge) rfl).bind fun r _ => ?_
    refine succeeds_typed.mono ?_
    rintro r ⟨typeId, rfl⟩
    exact ⟨fun _ => ⟨_, typeId, rfl⟩, fun hout => absurd hin (Nat.not_lt.mpr hout)⟩
  · rw [read_of_outside hmemory hsize ha' (by decide) (by omega), pure_bind]
    exact .pure ⟨fun h => absurd h hin, fun _ => rfl⟩

theorem take_header {a : Nat} (n : Nat) (ha : a < 2 ^ 32) :
    decode ((encode 4 a ++ encode 4 n).take 4) = a := by
  rw [List.take_left' (length_encode 4 a), decode_encode_of_lt (by omega)]

theorem drop_header (a : Nat) {n : Nat} (hn : n < 2 ^ 32) :
    decode (((encode 4 a ++ encode 4 n).drop 4).take 4) = n := by
  rw [List.drop_left' (length_encode 4 a), List.take_of_length_le (length_encode 4 n).le,
    decode_encode_of_lt (by omega)]

theorem inside_header {a n : Nat} {low : Int} (hlow : 0 ≤ low) (hhigh : low ≤ 4) :
    (header a n).Inside low (low + 4) := by
  have hbytes : (header a n).bytes.length = 8 := by
    change (encode 4 a ++ encode 4 n).length = 8
    rw [List.length_append, length_encode, length_encode]
  exact ⟨hlow, by omega, by rw [hbytes]; omega⟩

theorem succeeds_header (fuel : Nat) (hmemory : h.memory = some m)
    (hsize : m.buffer.length ≤ 2 ^ 32) (first second : Text)
    {data length byte : TypeRef} (hdata : (types data).shape = .ptr byte)
    (hdataSize : (types data).size = 4) (hbyte : IsUint (types byte) 1)
    (hlength : IsUint (types length) 4) {a n : Nat} (ha : a < 2 ^ 32) (hn : n < 2 ^ 32)
    (hend : a + 1 < 2 ^ 32 ∨ m.buffer.length ≤ a) (t : DwarfType) :
    Succeeds (h.bytesToStruct types (bytesToValueRecord h types (fuel + 2)) (header a n) t
      [⟨first, 0, data⟩, ⟨second, 4, length⟩]) fun r =>
        (a < m.buffer.length →
          ∃ d i j k, r = ⟨some (.struct [.reference d a i, .int n j] k), k, false⟩) ∧
        (m.buffer.length ≤ a → r = .error) := by
  have hfirst := succeeds_bytePointer fuel hmemory hsize hdata hbyte ((header a n).cut 0 (0 + 4))
    (le_refl 4) (take_header n ha) hend ha
  have hsecond : Succeeds (bytesToValueRecord h types (fuel + 2) ((header a n).cut 4 (4 + 4)) length)
      _ := succeeds_isUint (fuel + 1) hlength (.inr rfl) ((header a n).cut 4 (4 + 4)) (le_refl 4)
    (drop_header a hn)
  have hrest : Succeeds (structFields types (bytesToValueRecord h types (fuel + 2)) (header a n)
      [⟨second, 4, length⟩]) fun read => ∃ j, read = some [(.int n j, second, j)] := by
    rw [structFields, hlength.2.2.1]
    refine (succeeds_sub (inside_header (by decide) le_rfl)).bind ?_
    rintro part rfl
    refine hsecond.bind ?_
    rintro r ⟨j, rfl⟩
    exact .pure ⟨j, rfl⟩
  have hfields : Succeeds (structFields types (bytesToValueRecord h types (fuel + 2)) (header a n)
      [⟨first, 0, data⟩, ⟨second, 4, length⟩]) fun read =>
        (a < m.buffer.length →
          ∃ d i j, read = some [(.reference d a i, first, i), (.int n j, second, j)]) ∧
          (m.buffer.length ≤ a → read = none) := by
    rw [structFields, hdataSize]
    refine (succeeds_sub (inside_header le_rfl (by decide))).bind ?_
    rintro part rfl
    refine hfirst.bind fun r hr => ?_
    by_cases hin : a < m.buffer.length
    · obtain ⟨d, i, rfl⟩ := hr.1 hin
      refine hrest.bind ?_
      rintro more ⟨j, rfl⟩
      exact .pure ⟨fun _ => ⟨d, i, j, rfl⟩, fun hout => absurd hin (Nat.not_lt.mpr hout)⟩
    · rw [hr.2 (Nat.not_lt.mp hin)]
      exact .pure ⟨fun h => absurd h hin, fun _ => rfl⟩
  rw [bytesToStruct]
  refine hfields.bind fun read hread => ?_
  by_cases hin : a < m.buffer.length
  · obtain ⟨d, i, j, rfl⟩ := hread.1 hin
    refine succeeds_typed.mono ?_
    rintro r ⟨k, rfl⟩
    exact ⟨fun _ => ⟨d, i, j, k, rfl⟩, fun hout => absurd hin (Nat.not_lt.mpr hout)⟩
  · rw [hread.2 (Nat.not_lt.mp hin)]
    exact .pure ⟨fun h => absurd h hin, fun _ => rfl⟩

theorem bytesToValueRecord_struct (fuel : Nat) {ref : TypeRef} (hstr : IsStr types ref) (raw : Raw) :
    ∃ first second data length byte, bytesToValueRecord h types (fuel + 1) raw ref =
        h.bytesToStringRust types (bytesToValueRecord h types fuel) raw (types ref)
          [⟨first, 0, data⟩, ⟨second, 4, length⟩] ∧
      (types data).shape = .ptr byte ∧ (types data).size = 4 ∧ IsUint (types byte) 1 ∧
      IsUint (types length) 4 := by
  obtain ⟨first, second, data, length, byte, hshape, hfields⟩ := hstr.fields
  refine ⟨first, second, data, length, byte, ?_, hfields⟩
  rw [bytesToValueRecord, hshape]
  exact if_pos hstr.text

/-- **The reader of a `&str`**: the bytes of its text are read if its pointer is one into memory. -/
theorem bytesToValueRecord_str (fuel : Nat) (hmemory : h.memory = some m)
    (hsize : m.buffer.length ≤ 2 ^ 32) {ref : TypeRef} (hstr : IsStr types ref) {a n : Nat}
    (ha : a < 2 ^ 32) (hn : n < 2 ^ 32) (hend : a + 1 < 2 ^ 32 ∨ m.buffer.length ≤ a)
    (r : Recorder) :
    ∃ r₁, (a < m.buffer.length → bytesToValueRecord h types (fuel + 3) (header a n) ref r =
        (do h.typed (types ref) .string .none (.string (← stringBytes h a 0 n)) : RecordM Reading) r₁) ∧
      (m.buffer.length ≤ a →
        bytesToValueRecord h types (fuel + 3) (header a n) ref r = .ok .error r₁) := by
  obtain ⟨first, second, data, length, byte, hreader, hdata, hdataSize, hbyte, hlength⟩ :=
    bytesToValueRecord_struct (fuel + 2) hstr (header a n)
  obtain ⟨reading, r₁, hread, hin, hout⟩ := succeeds_header fuel hmemory hsize first second hdata
    hdataSize hbyte hlength ha hn hend (types ref) r
  refine ⟨r₁, fun hlt => ?_, fun hle => ?_⟩
  · obtain ⟨d, i, j, k, rfl⟩ := hin hlt
    rw [hreader, bytesToStringRust, bind_of_ok hread]
    rfl
  · rw [hreader, bytesToStringRust, bind_of_ok hread, hout hle]
    rfl

/-- A pointer to the last byte of a memory of 4 GiB cannot be followed. -/
theorem bytesToValueRecord_str_atEnd (fuel : Nat) (hmemory : h.memory = some m)
    (hlen : m.buffer.length = 2 ^ 32) {ref : TypeRef} (hstr : IsStr types ref) {a n : Nat}
    (hend : a + 1 = 2 ^ 32) :
    bytesToValueRecord h types (fuel + 3) (header a n) ref = goPanic := by
  obtain ⟨first, second, data, length, byte, hreader, hdata, hdataSize, hbyte, -⟩ :=
    bytesToValueRecord_struct (fuel + 2) hstr (header a n)
  have hpointer : bytesToValueRecord h types (fuel + 2) ((header a n).cut 0 (0 + 4)) data =
      goPanic := by
    rw [bytesToValueRecord_bytePointer (fuel + 1) hdata hbyte _ (le_refl 4) (take_header n (by omega)),
      read_atEnd hmemory hlen (by omega) (by decide) hend]
    rfl
  have hfields : structFields types (bytesToValueRecord h types (fuel + 2)) (header a n)
      [⟨first, 0, data⟩, ⟨second, 4, length⟩] = goPanic := by
    have hsub : (header a n).sub 0 (0 + 4) = pure ((header a n).cut 0 (0 + 4)) :=
      if_pos (inside_header le_rfl (by decide))
    rw [structFields, hdataSize, hsub, pure_bind, hpointer]
    rfl
  rw [hreader, bytesToStringRust, bytesToStruct, hfields]
  rfl

/-- A `&str` is read without a panic. If the `n` bytes at `a` are in memory, then its text has these
bytes, and otherwise there is an error. -/
def ReadsText (h : Hook) (buffer : Bytes) (types : TypeRef → DwarfType) (fuel : Nat) (ref : TypeRef)
    (a n : Nat) : Prop :=
  Succeeds (bytesToValueRecord h types fuel (header a n) ref) fun r =>
    if n = 0 ∨ a + n ≤ buffer.length then
      ∃ text typeId, r = ⟨some (.string text typeId), typeId, false⟩ ∧
        utf8 text = (buffer.drop a).take n
    else r.failed = true

/-- An empty text has a pointer into memory; and if there is such a pointer, then all of the text is
in memory, has only characters of ASCII, and neither it nor the byte that its pointer is followed to
is the last of a memory of 4 GiB. -/
def PlainText (buffer : Bytes) (a n : Nat) : Prop :=
  (n = 0 → a < buffer.length) ∧
    (a < buffer.length → a + n ≤ buffer.length ∧ a + max n 1 < 2 ^ 32 ∧
      ∀ b ∈ (buffer.drop a).take n, b.toNat < 128)

/-- **When the text of a `&str` has the bytes of the program.** -/
theorem readsText_iff (fuel : Nat) (hmemory : h.memory = some m)
    (hsize : m.buffer.length ≤ 2 ^ 32) {ref : TypeRef} (hstr : IsStr types ref) {a n : Nat}
    (ha : a < 2 ^ 32) (hn : n < 2 ^ 32) :
    ReadsText h m.buffer types (fuel + 3) ref a n ↔ PlainText m.buffer a n := by
  constructor
  · intro hreads
    obtain ⟨reading, r', hread, hQ⟩ := hreads ⟨[], fun _ => []⟩
    have hend : a + 1 < 2 ^ 32 ∨ m.buffer.length ≤ a := by
      by_contra hlast
      rw [bytesToValueRecord_str_atEnd fuel hmemory (by omega) hstr (by omega)] at hread
      cases hread
    obtain ⟨r₁, hin, hout⟩ :=
      bytesToValueRecord_str fuel hmemory hsize hstr ha hn hend (⟨[], fun _ => []⟩ : Recorder)
    constructor
    · intro hzero
      by_contra hlt
      rw [hout (Nat.not_lt.mp hlt)] at hread
      cases hread
      rw [if_pos (.inl hzero)] at hQ
      obtain ⟨text, typeId, heq, -⟩ := hQ
      cases heq
    · intro hlt
      rw [hin hlt] at hread
      obtain ⟨text, r₂, htext, hread⟩ := Stateful.bind_eq_ok.mp hread
      obtain ⟨reading', r₃, hread', typeId, rfl⟩ : ∃ a s', h.typed (types ref) .string .none
          (.string text) r₂ = .ok a s' ∧ ∃ typeId, a = ⟨some (.string text typeId), typeId, false⟩ :=
        succeeds_typed r₂
      rw [hread'] at hread
      cases hread
      have hinside : a + n ≤ m.buffer.length := by
        by_contra hbehind
        rw [if_neg (by omega)] at hQ
        cases hQ
      -- the loop does not come to the end of a memory of 4 GiB
      have hlast : a + max n 1 < 2 ^ 32 := by
        by_contra hlast
        rw [stringBytes_atEnd hmemory (by omega) (by omega) (by omega)] at htext
        cases htext
      rw [if_pos (.inr hinside)] at hQ
      obtain ⟨text', typeId', heq, hutf8⟩ := hQ
      cases heq
      rw [stringBytes_inside hmemory hsize (by omega) (by omega)] at htext
      cases htext
      exact ⟨hinside, hlast, (utf8_charsOf_iff _).mp hutf8⟩
  · rintro ⟨hzero, hplain⟩ r
    have hend : a + 1 < 2 ^ 32 ∨ m.buffer.length ≤ a := by
      rcases Nat.lt_or_ge a m.buffer.length with hlt | hle
      · have := (hplain hlt).2.1
        omega
      · exact .inr hle
    obtain ⟨r₁, hin, hout⟩ := bytesToValueRecord_str fuel hmemory hsize hstr ha hn hend r
    by_cases hlt : a < m.buffer.length
    · obtain ⟨hinside, hlast, hascii⟩ := hplain hlt
      obtain ⟨reading, r', hread, typeId, rfl⟩ : ∃ a' s', h.typed (types ref) .string .none
          (.string (charsOf ((m.buffer.drop a).take n))) r₁ = .ok a' s' ∧ ∃ typeId,
            a' = ⟨some (.string (charsOf ((m.buffer.drop a).take n)) typeId), typeId, false⟩ :=
        succeeds_typed r₁
      refine ⟨⟨some (.string (charsOf ((m.buffer.drop a).take n)) typeId), typeId, false⟩, r', ?_, ?_⟩
      · rw [hin hlt, stringBytes_inside hmemory hsize (by omega) (by omega), pure_bind]
        exact hread
      · dsimp only
        rw [if_pos (.inr hinside)]
        exact ⟨_, typeId, rfl, (utf8_charsOf_iff _).mpr hascii⟩
    · refine ⟨.error, r₁, hout (Nat.not_lt.mp hlt), ?_⟩
      dsimp only
      rw [if_neg (by rintro (h0 | hle) <;> [exact hlt (hzero h0); omega])]
      rfl

end Str

/-! ### The elements of a sequence -/

section Sequence

variable (recur : Raw → TypeRef → RecordM Reading)

/-- Elements of `s` bytes, one behind the other from `a` on, up to the first that is not in memory or
cannot be read. -/
def exactElements (buffer : Bytes) (a s : Nat) (elem : TypeRef) (from_ : Nat) :
    Nat → RecordM (List (Option ValueRecord) × Bool)
  | 0 => return ([], false)
  | n + 1 =>
    if a + (from_ + 1) * s ≤ buffer.length then do
      let r ← recur (.ofBytes ((buffer.drop (a + from_ * s)).take s)) elem
      if r.failed then return ([], true)
      else
        let (more, failed) ← exactElements buffer a s elem (from_ + 1) n
        return (r.value :: more, failed)
    else return ([], true)

/-- The sequence of these elements. -/
def exactSequence (h : Hook) (t : DwarfType) (buffer : Bytes) (a s : Nat) (elem : TypeRef)
    (n : Nat) : RecordM Reading := do
  let typeId ← typeIdOf h.module t.text .slice .none
  let (elems, failed) ← exactElements recur buffer a s elem 0 n
  let value := some (.sequence elems true typeId)
  return if failed then ⟨value, invalidTypeId, true⟩ else ⟨value, typeId, false⟩

/-- An element ends where a memory of 4 GiB ends. -/
def AtEnd (buffer : Bytes) (a s n : Nat) : Prop :=
  buffer.length = 2 ^ 32 ∧ 0 < s ∧ ∃ i < n, a + (i + 1) * s = 2 ^ 32

variable {recur} {h : Hook} {m : MemoryInstance} {types : TypeRef → DwarfType} {elem : TypeRef}
  {a s : Nat}

theorem next_element (a s i : Nat) : a + (i + 1) * s = a + i * s + s := by
  rw [Nat.add_mul, Nat.one_mul, Nat.add_assoc]

/-- **The loop over the elements.** -/
theorem elements_eq_exact (hmemory : h.memory = some m) (hsize : m.buffer.length ≤ 2 ^ 32)
    (hs : ((types elem).byteSize % 2 ^ 32).toNat = s) {from_ n : Nat}
    (hstart : a + from_ * s < 2 ^ 32) (hend : ¬ AtEnd m.buffer a s (from_ + n)) :
    elements types recur h a elem from_ n = exactElements recur m.buffer a s elem from_ n := by
  have hlt : s < 2 ^ 32 := by omega
  induction n generalizing from_ with
  | zero => rfl
  | succ n ih =>
    have hnext := next_element a s from_
    rw [elements, exactElements]
    dsimp only
    rw [hs]
    by_cases hin : a + (from_ + 1) * s ≤ m.buffer.length
    · -- the element does not end at 4 GiB, so neither does the address of the next one wrap around
      have hlast : a + (from_ + 1) * s < 2 ^ 32 := by
        by_contra hge
        exact hend ⟨by omega, by omega, from_, by omega, by omega⟩
      rw [if_pos hin, read_of_inside hmemory hsize (by omega) (by omega), pure_bind]
      dsimp only
      rw [ih hlast (by rw [Nat.add_right_comm]; exact hend)]
    · rw [if_neg hin, read_of_outside hmemory hsize hstart hlt (by omega), pure_bind]

theorem sequence_eq_exact (hmemory : h.memory = some m) (hsize : m.buffer.length ≤ 2 ^ 32)
    (ha : a < 2 ^ 32) (hs : ((types elem).byteSize % 2 ^ 32).toNat = s) {n : Nat}
    (hend : ¬ AtEnd m.buffer a s n) (t : DwarfType) :
    h.sequence types recur t a elem n = exactSequence recur h t m.buffer a s elem n := by
  rw [sequence, exactSequence, Nat.mod_eq_of_lt ha,
    elements_eq_exact hmemory hsize hs (by omega) (by rw [Nat.zero_add]; exact hend)]

end Sequence

/-- The elements of a slice and of a vector whose pointer is `a` and whose length is `n` are read one
behind the other from `a` on, whatever they are and however they are read. -/
structure ReadsElements (h : Hook) (buffer : Bytes) (a s n : Nat) : Prop where
  slice : ∀ (types : TypeRef → DwarfType) (recur : Raw → TypeRef → RecordM Reading) (raw : Raw)
    (t : DwarfType) (fields : List StructField) (elem : TypeRef) (r r₁ : Recorder)
    (d : ValueRecord) (length : Int) (i j k typeId : Nat) (failed : Bool),
    ((types elem).byteSize % 2 ^ 32).toNat = s →
    fields.head?.map (fun field => (types field.type).shape) = some (.ptr elem) →
    h.bytesToStruct types recur raw t fields r =
      .ok ⟨some (.struct [.reference d a i, .int length j] k), typeId, failed⟩ r₁ →
    (length % 2 ^ 32).toNat = n →
      h.bytesToSliceRust types recur raw t fields r = exactSequence recur h t buffer a s elem n r₁
  vec : ∀ (types : TypeRef → DwarfType) (recur : Raw → TypeRef → RecordM Reading) (raw : Raw)
    (t : DwarfType) (fields : List StructField) (elem : TypeRef) (r r₁ : Recorder)
    (d : ValueRecord) (rest₁ rest₂ rest₃ rest₄ : List ValueRecord) (length : Int)
    (i j k k₁ k₂ k₃ k₄ typeId : Nat) (failed : Bool),
    ((types elem).byteSize % 2 ^ 32).toNat = s → h.vecElem t.text = some elem →
    h.bytesToStruct types recur raw t fields r =
      .ok ⟨some (.struct [.struct (.struct (.struct (.struct (.reference d a i :: rest₁) k₁ :: rest₂) k₂
        :: rest₃) k₃ :: rest₄) k₄, .int length j] k), typeId, failed⟩ r₁ →
    (length % 2 ^ 32).toNat = n →
      h.bytesToVecRust types recur raw t fields r = exactSequence recur h t buffer a s elem n r₁

section Readers

variable {h : Hook} {m : MemoryInstance} {a s n : Nat}

theorem readsElements_of_not_atEnd (hmemory : h.memory = some m)
    (hsize : m.buffer.length ≤ 2 ^ 32) (ha : a < 2 ^ 32) (hend : ¬ AtEnd m.buffer a s n) :
    ReadsElements h m.buffer a s n := by
  constructor
  · intro types recur raw t fields elem r r₁ d length i j k typeId failed hs helem hstruct hn
    rw [bytesToSliceRust, bind_of_ok hstruct]
    dsimp only
    rw [helem, hn]
    dsimp only
    rw [sequence_eq_exact hmemory hsize ha hs hend]
  · intro types recur raw t fields elem r r₁ d rest₁ rest₂ rest₃ rest₄ length i j k k₁ k₂ k₃ k₄ typeId
      failed hs helem hstruct hn
    rw [bytesToVecRust, helem]
    dsimp only
    rw [bind_of_ok hstruct]
    dsimp only
    rw [hn, sequence_eq_exact hmemory hsize ha hs hend]

/-- A slice of elements that can always be read. -/
def blankTypes (s : Nat) (ref : TypeRef) : DwarfType :=
  if ref = 0 then ⟨[], 0, 0, .ptr 1⟩ else if ref = 1 then ⟨[], s, 0, .other⟩ else ⟨[], 0, 0, .other⟩

def blankReader (a n : Nat) (_ : Raw) (ref : TypeRef) : RecordM Reading :=
  if ref = 0 then return ⟨some (.reference .nil a 0), 0, false⟩
  else if ref = 1 then return ⟨some .nil, 0, false⟩
  else return ⟨some (.int n 0), 0, false⟩

def blankFields : List StructField := [⟨[], 0, 0⟩, ⟨[], 0, 2⟩]

theorem byteSize_blankTypes (hs : s < 2 ^ 32) : ((blankTypes s 1).byteSize % 2 ^ 32).toNat = s := by
  change (((s : Nat) : Int) % 2 ^ 32).toNat = s
  omega

/-- The element at the end makes the loop panic. -/
theorem elements_atEnd (hmemory : h.memory = some m) (hlen : m.buffer.length = 2 ^ 32)
    (hs : s < 2 ^ 32) (hpos : 0 < s) (from_ count k : Nat) (hk : k < count)
    (hend : a + (from_ + k + 1) * s = 2 ^ 32) :
    elements (blankTypes s) (blankReader a n) h a 1 from_ count = goPanic := by
  induction k generalizing from_ count with
  | zero =>
    obtain ⟨count, rfl⟩ := Nat.exists_eq_add_of_lt hk
    have hnext := next_element a s from_
    rw [Nat.add_zero] at hend
    rw [Nat.zero_add, elements]
    dsimp only
    rw [byteSize_blankTypes hs, read_atEnd hmemory hlen (by omega) hs (by omega)]
    rfl
  | succ k ih =>
    obtain ⟨count, rfl⟩ : ∃ c, count = c + 1 := ⟨count - 1, by omega⟩
    have hbefore : (from_ + 1) * s ≤ (from_ + (k + 1)) * s := Nat.mul_le_mul_right s (by omega)
    have hnext := next_element a s from_
    have hlast := next_element a s (from_ + (k + 1))
    rw [elements]
    dsimp only
    rw [byteSize_blankTypes hs, read_of_inside hmemory hlen.le (by omega) (by omega), pure_bind]
    change elements (blankTypes s) (blankReader a n) h a 1 (from_ + 1) count >>= _ = _
    rw [ih (from_ + 1) count (by omega) (by rw [Nat.add_right_comm from_ 1 k]; exact hend)]
    rfl

theorem exactElements_blank (buffer : Bytes) (from_ count : Nat) :
    ∃ read, exactElements (blankReader a n) buffer a s 1 from_ count = pure read := by
  induction count generalizing from_ with
  | zero => exact ⟨_, rfl⟩
  | succ count ih =>
    rw [exactElements]
    by_cases hthis : a + (from_ + 1) * s ≤ buffer.length
    · obtain ⟨read, hread⟩ := ih (from_ + 1)
      refine ⟨(some .nil :: read.1, read.2), ?_⟩
      rw [if_pos hthis]
      change exactElements (blankReader a n) buffer a s 1 (from_ + 1) count >>= _ = _
      rw [hread, pure_bind]
    · exact ⟨_, if_neg hthis⟩

theorem ReadsElements.not_atEnd (hreads : ReadsElements h m.buffer a s n)
    (hmemory : h.memory = some m) (ha : a < 2 ^ 32) (hs : s < 2 ^ 32) (hn : n < 2 ^ 32) :
    ¬ AtEnd m.buffer a s n := by
  rintro ⟨hlen, hpos, i, hi, hend⟩
  -- the slice is what the reader of its fields says
  obtain ⟨k, r₁, hstruct⟩ : ∃ k r₁, h.bytesToStruct (blankTypes s) (blankReader a n) ⟨[], 0⟩
      ⟨[], 0, 0, .other⟩ blankFields ⟨[], fun _ => []⟩ =
        .ok ⟨some (.struct [.reference .nil a 0, .int n 0] k), k, false⟩ r₁ := by
    obtain ⟨reading, r₁, hread, k, rfl⟩ : ∃ a' s', h.typed ⟨[], 0, 0, .other⟩ .struct
        (.struct [([], 0), ([], 0)]) (.struct [.reference .nil a 0, .int n 0]) ⟨[], fun _ => []⟩ =
          .ok a' s' ∧ ∃ k, a' = ⟨some (.struct [.reference .nil a 0, .int n 0] k), k, false⟩ :=
      succeeds_typed _
    exact ⟨k, r₁, hread⟩
  have hslice := hreads.slice (blankTypes s) (blankReader a n) ⟨[], 0⟩ ⟨[], 0, 0, .other⟩ blankFields 1
    ⟨[], fun _ => []⟩ r₁ .nil n 0 0 k k false (byteSize_blankTypes hs) rfl hstruct (by omega)
  rw [bytesToSliceRust, bind_of_ok hstruct] at hslice
  change h.sequence (blankTypes s) (blankReader a n) ⟨[], 0, 0, .other⟩ a 1 ((n : Int) % 2 ^ 32).toNat r₁ = _
    at hslice
  have hmod : ((n : Int) % 2 ^ 32).toNat = n := by omega
  obtain ⟨typeId, r₂, htype, -⟩ := succeeds_typeIdOf h.module [] .slice .none r₁
  obtain ⟨read, hread⟩ := @exactElements_blank a s n m.buffer 0 n
  -- one of the two readers panics, and the other does not
  rw [hmod, sequence, exactSequence, bind_of_ok htype, bind_of_ok htype, Nat.mod_eq_of_lt ha,
    elements_atEnd hmemory hlen hs hpos 0 n i hi (by rw [Nat.zero_add]; exact hend), hread,
    pure_bind] at hslice
  cases hslice

/-- Texts and sequences with pointer `a`, length `n` and elements of `s` bytes are those of the
program. -/
structure RecordsGuestBytes (h : Hook) (buffer : Bytes) (a s n : Nat) : Prop where
  text : ∀ types ref fuel, IsStr types ref → 3 ≤ fuel → ReadsText h buffer types fuel ref a n
  elements : ReadsElements h buffer a s n

/-- The types of a `&str`. -/
def strTypes (ref : TypeRef) : DwarfType :=
  if ref = 0 then ⟨"struct &str".toList, 8, 8, .struct [⟨"data_ptr".toList, 0, 1⟩, ⟨"length".toList, 4, 2⟩]⟩
  else if ref = 1 then ⟨"*u8".toList, 4, 4, .ptr 3⟩
  else if ref = 2 then ⟨"usize".toList, 4, 4, .uint⟩
  else ⟨"u8".toList, 1, 1, .uint⟩

theorem isStr_strTypes : IsStr strTypes 0 where
  text := rfl
  fields := ⟨_, _, 1, 2, 3, rfl, rfl, rfl, ⟨rfl, rfl, rfl, by decide⟩, rfl, rfl, rfl, by decide⟩

end Readers

/-- A hook that sees some bytes of memory. -/
def ofMemory (buffer : Bytes) : Hook := ⟨0, some ⟨buffer, 65536⟩, [], fun _ => none⟩

end Hook

end Interpreter
