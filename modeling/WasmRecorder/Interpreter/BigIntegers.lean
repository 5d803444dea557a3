import WasmRecorder.Interpreter.Sequences

/-!
# Big integers

The crate `ruint` keeps a number as words of 64 bits, the lowest first. The reader takes the words
through the records of signed numbers, puts their bytes together again, reverses them and drops the
leading zeroes.

* `recorded_bytes` — what comes of the words is the front of the value's own bytes.
* `bytesToRuintRust_exact` — the bytes recorded are the shortest big-endian bytes of the number, if
  there is at least one word; without a word there is no byte (`bytesToRuintRust_noLimb`).
-/

namespace Interpreter

open LittleEndian Stateful

namespace Hook

/-- A word of a number in memory. -/
def limb (raw : Raw) (i : Nat) : Nat := decode ((raw.bytes.drop (8 * i)).take 8)

/-- The type of a number of `n` words. -/
structure IsRuint (types : TypeRef → DwarfType) (field : StructField) (n : Nat) : Prop where
  offset : field.byteOffset = 0
  size : (types field.type).size = 8 * n
  limbs : ∃ word, (types field.type).shape = .array word n ∧ IsUint (types word) 8

/-- Big-endian bytes of a number, and no fewer would do. -/
structure IsMinimal (bytes : Bytes) (n : Nat) : Prop where
  value : decode bytes.reverse = n
  nonempty : bytes ≠ []
  noLeadingZero : ∀ rest, bytes = 0 :: rest → rest = []

/-! ### Bytes of words -/

theorem decode_append (a b : Bytes) : decode (a ++ b) = decode a + 256 ^ a.length * decode b := by
  induction a with
  | nil => simp [decode]
  | cons x a ih =>
    rw [List.cons_append, decode, decode, ih, List.length_cons, pow_succ]
    ring

theorem decode_take_eq_sum (raw : Raw) {n : Nat} (hn : 8 * n ≤ raw.bytes.length) :
    decode (raw.bytes.take (8 * n)) = ∑ i ∈ Finset.range n, limb raw i * 2 ^ (64 * i) := by
  induction n with
  | zero => rfl
  | succ n ih =>
    rw [Finset.sum_range_succ, ← ih (by omega), Nat.mul_succ, List.take_add, decode_append,
      List.length_take_of_le (by omega), limb, pow_mul, pow_mul, Nat.mul_comm (decode _)]
    rfl

/-- A word goes through a signed record unchanged. -/
theorem encode_signed_word (raw : Raw) {i : Nat} (hi : 8 * (i + 1) ≤ raw.bytes.length) :
    encode 8 (signed 8 (limb raw i) % 2 ^ 64).toNat = (raw.bytes.drop (8 * i)).take 8 := by
  have hlen : ((raw.bytes.drop (8 * i)).take 8).length = 8 := by
    rw [List.length_take, List.length_drop]
    omega
  have hlt := decode_lt ((raw.bytes.drop (8 * i)).take 8)
  rw [hlen] at hlt
  have hword : (signed 8 (limb raw i) % 2 ^ 64).toNat = limb raw i := by
    rw [signed]
    split_ifs <;> (rw [limb]; omega)
  have hcode := encode_decode ((raw.bytes.drop (8 * i)).take 8)
  rw [hlen] at hcode
  rw [hword, limb, hcode]

theorem recorded_bytes (raw : Raw) {n : Nat} (hn : 8 * n ≤ raw.bytes.length) :
    (((List.range n).map fun i => signed 8 (limb raw i)).flatMap fun i =>
      encode 8 (i % 2 ^ 64).toNat) = raw.bytes.take (8 * n) := by
  induction n with
  | zero => rfl
  | succ n ih =>
    rw [List.range_succ, List.map_append, List.flatMap_append, ih (by omega), Nat.mul_succ,
      List.take_add, List.map_singleton, List.flatMap_singleton, encode_signed_word raw hn]

theorem isMinimal_trimZeroes {bytes : Bytes} (h : bytes ≠ []) :
    IsMinimal (trimZeroes bytes) (decode bytes.reverse) := by
  fun_induction trimZeroes bytes with
  | case1 b rest ih =>
    obtain ⟨hvalue, hne, hzero⟩ := ih (List.cons_ne_nil b rest)
    refine ⟨hvalue.trans ?_, hne, hzero⟩
    rw [List.reverse_cons (a := (0 : UInt8)), decode_append]
    simp [decode]
  | case2 bytes hno =>
    refine ⟨rfl, h, ?_⟩
    rintro rest rfl
    cases rest with
    | nil => rfl
    | cons b rest => exact absurd rfl (hno b rest)

/-! ### The reader -/

section Reader

variable {h : Hook} {types : TypeRef → DwarfType}

theorem succeeds_word (fuel : Nat) {ref : TypeRef} (huint : IsUint (types ref) 8) (raw : Raw)
    (hlength : 8 ≤ raw.length) :
    Succeeds (bytesToValueRecord h types (fuel + 1) raw ref) fun r =>
      ∃ typeId, r = ⟨some (.int (signed 8 (decode (raw.bytes.take 8))) typeId), typeId, false⟩ := by
  obtain ⟨hshape, hbytes, -, htext⟩ := huint
  rw [bytesToValueRecord, hshape]
  dsimp only
  rw [if_neg htext, bytesToUint, hbytes, if_pos (by omega), Int.toNat_natCast]
  refine (succeeds_uint hlength).bind ?_
  rintro n rfl
  exact succeeds_typed

theorem succeeds_limbs (fuel : Nat) {word : TypeRef} (huint : IsUint (types word) 8) {raw : Raw}
    {from_ n : Nat} (hin : 8 * (from_ + n) ≤ raw.bytes.length) :
    Succeeds (arrayElems types (bytesToValueRecord h types (fuel + 1)) raw word from_ n)
      fun elems => limbs elems = some ((List.range' from_ n).map fun i => signed 8 (limb raw i)) := by
  induction n generalizing from_ with
  | zero => exact .pure rfl
  | succ n ih =>
    rw [arrayElems, huint.2.2.1]
    have hinside : raw.Inside (from_ * (8 : Nat)) ((from_ + 1) * (8 : Nat)) :=
      ⟨by omega, by omega, by omega⟩
    refine (succeeds_sub hinside).bind ?_
    rintro part rfl
    refine (succeeds_word fuel huint _ ?_).bind ?_
    · change 8 ≤ (((from_ : Int) + 1) * (8 : Nat) - from_ * (8 : Nat)).toNat
      omega
    · rintro r ⟨typeId, rfl⟩
      refine (ih (by omega)).bind fun elems helems => .pure ?_
      have hoffset : ((from_ : Int) * (8 : Nat)).toNat = 8 * from_ := by omega
      rw [limbs, helems, List.range'_succ, List.map_cons, Option.map_some, limb, Raw.cut, hoffset]

/-- The bytes the reader records. -/
theorem succeeds_ruint (fuel : Nat) {field : StructField} {n : Nat} (htype : IsRuint types field n)
    {raw : Raw} (hraw : 8 * n ≤ raw.bytes.length) (t : DwarfType) :
    Succeeds (h.bytesToRuintRust types (bytesToValueRecord h types (fuel + 2)) raw t [field])
      fun r => ∃ typeId, r =
        ⟨some (.bigInt (trimZeroes (raw.bytes.take (8 * n)).reverse) typeId), typeId, false⟩ := by
  obtain ⟨word, hshape, hword⟩ := htype.limbs
  have hinside : raw.Inside 0 (0 + 8 * n) := ⟨le_rfl, by omega, by omega⟩
  have harray : Succeeds (bytesToValueRecord h types (fuel + 2) (raw.cut 0 (0 + 8 * n)) field.type)
      fun r => ∃ elems typeId, r = ⟨some (.sequence elems false typeId), typeId, false⟩ ∧
        limbs elems = some ((List.range n).map fun i => signed 8 (limb raw i)) := by
    rw [bytesToValueRecord, hshape]
    dsimp only
    rw [bytesToArray, Int.toNat_natCast]
    refine (succeeds_limbs fuel hword (by rw [Nat.zero_add]; exact hraw)).bind fun elems helems => ?_
    refine succeeds_typed.mono ?_
    rintro r ⟨typeId, rfl⟩
    rw [← List.range_eq_range'] at helems
    exact ⟨elems, typeId, rfl, helems⟩
  have hfields : Succeeds (structFields types (bytesToValueRecord h types (fuel + 2)) raw [field])
      fun read => ∃ elems i, read = some [(.sequence elems false i, field.name, i)] ∧
        limbs elems = some ((List.range n).map fun i => signed 8 (limb raw i)) := by
    rw [structFields, htype.offset, htype.size]
    refine (succeeds_sub hinside).bind ?_
    rintro part rfl
    refine harray.bind ?_
    rintro r ⟨elems, i, rfl, helems⟩
    exact .pure ⟨elems, i, rfl, helems⟩
  have hstruct : Succeeds (h.bytesToStruct types (bytesToValueRecord h types (fuel + 2)) raw t [field])
      fun r => ∃ elems i j, r = ⟨some (.struct [.sequence elems false i] j), j, false⟩ ∧
        limbs elems = some ((List.range n).map fun i => signed 8 (limb raw i)) := by
    rw [bytesToStruct]
    refine hfields.bind ?_
    rintro read ⟨elems, i, rfl, helems⟩
    refine succeeds_typed.mono ?_
    rintro r ⟨j, rfl⟩
    exact ⟨elems, i, j, rfl, helems⟩
  rw [bytesToRuintRust]
  refine hstruct.bind ?_
  rintro r ⟨elems, i, j, rfl, helems⟩
  dsimp only
  rw [helems]
  dsimp only
  rw [recorded_bytes raw hraw]
  exact succeeds_typed

/-- **A big integer is recorded exactly**: by its shortest big-endian bytes if it has a word, and by no
byte if it has none. -/
theorem bytesToRuintRust_exact (fuel : Nat) {field : StructField} {n : Nat}
    (htype : IsRuint types field n) (raw : Raw) (hraw : 8 * n ≤ raw.bytes.length) (t : DwarfType) :
    Succeeds (h.bytesToRuintRust types (bytesToValueRecord h types (fuel + 2)) raw t [field])
      fun r => ∃ bytes typeId, r = ⟨some (.bigInt bytes typeId), typeId, false⟩ ∧
        (0 < n → IsMinimal bytes (∑ i ∈ Finset.range n, limb raw i * 2 ^ (64 * i))) ∧
        (n = 0 → bytes = []) := by
  refine (succeeds_ruint fuel htype hraw t).mono ?_
  rintro r ⟨typeId, rfl⟩
  refine ⟨_, typeId, rfl, fun hn => ?_, ?_⟩
  · have hne : (raw.bytes.take (8 * n)).reverse ≠ [] := by
      intro hnil
      have hlen := congrArg List.length hnil
      rw [List.length_reverse, List.length_take_of_le hraw, List.length_nil] at hlen
      omega
    have hminimal := isMinimal_trimZeroes hne
    rwa [List.reverse_reverse, decode_take_eq_sum raw hraw] at hminimal
  · rintro rfl
    rfl

/-- A field of `n` words. -/
def ruintField : StructField := ⟨"limbs".toList, 0, 0⟩

def ruintTypes (n : Nat) (ref : TypeRef) : DwarfType :=
  if ref = 0 then ⟨"[u64]".toList, -1, 8 * n, .array 1 n⟩ else ⟨"u64".toList, 8, 8, .uint⟩

theorem isRuint_ruintTypes (n : Nat) : IsRuint (ruintTypes n) ruintField n :=
  ⟨rfl, rfl, 1, rfl, rfl, rfl, rfl, show "u64".toList ≠ "()".toList by decide⟩

def ruintType (n : Nat) : DwarfType := ⟨"struct Uint<>".toList, 8 * n, 8 * n, .struct [ruintField]⟩

/-- Two words, the number `3 * 2 ^ 64 + 258`. -/
def twoLimbs : Raw := .ofBytes [2, 1, 0, 0, 0, 0, 0, 0, 3, 0, 0, 0, 0, 0, 0, 0]

theorem bytesToRuintRust_exact_twoLimbs :
    Succeeds ((ofMemory []).bytesToRuintRust (ruintTypes 2)
        (bytesToValueRecord (ofMemory []) (ruintTypes 2) 2) twoLimbs (ruintType 2) [ruintField])
      fun r => ∃ bytes typeId, r = ⟨some (.bigInt bytes typeId), typeId, false⟩ ∧
        IsMinimal bytes (∑ i ∈ Finset.range 2, limb twoLimbs i * 2 ^ (64 * i)) := by
  refine (bytesToRuintRust_exact 0 (isRuint_ruintTypes 2) twoLimbs (by decide) _).mono ?_
  rintro r ⟨bytes, typeId, hr, hminimal, -⟩
  exact ⟨bytes, typeId, hr, hminimal (by decide)⟩

/-- Without a word there is no byte, not even a zero. -/
theorem bytesToRuintRust_noLimb :
    IsRuint (ruintTypes 0) ruintField 0 ∧
    Succeeds ((ofMemory []).bytesToRuintRust (ruintTypes 0)
        (bytesToValueRecord (ofMemory []) (ruintTypes 0) 2) (.ofBytes []) (ruintType 0) [ruintField])
      (fun r => ∃ typeId, r = ⟨some (.bigInt [] typeId), typeId, false⟩) ∧
    ¬ IsMinimal [] 0 :=
  ⟨isRuint_ruintTypes 0, succeeds_ruint 0 (isRuint_ruintTypes 0) (Nat.zero_le _) _,
    fun hminimal => hminimal.nonempty rfl⟩

end Reader

end Hook

end Interpreter
