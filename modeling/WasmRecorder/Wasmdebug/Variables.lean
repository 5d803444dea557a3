import WasmRecorder.Interpreter.VariableReaders
import WasmRecorder.Lib.Fallible
import WasmRecorder.Lib.Varint

/-!
# Where variables are

A variable has a location expression, which most often gives an offset in the frame of its function;
the function says where its frame is. `indexVariable` reads the one and `frameBaseOf` the other, and
the readers of the interpreter then add them up (`Hook.address`).

* `indexVariable`, `frameBaseOf` — the records.
* `fbreg_address_iff` — **when a variable is read at the base of the frame and its offset**, and when
  its location expression is indexed without a panic.

Negative offsets are read as positive ones unless they take five bytes; if the base is in a global,
then the offset is not added; and an expression of one byte makes the index panic
(`misread_variables`).
-/

namespace Wasmdebug

open Interpreter (Bytes Text Fault Hook LocationType MemoryLocation TypeRef VariableRecord)

/-- The loop of `parseLEB128`. -/
def parseFrom : Nat → Nat → Bytes → Nat
  | _, res, [] => res
  | shift, res, b :: rest =>
    let res := (res + b.toNat % 128 * 2 ^ shift) % 2 ^ 64
    if b.toNat < 128 then res else parseFrom (shift + 7) res rest

def parseLEB128 (v : Bytes) : Nat := parseFrom 0 0 v

/-- A value of an attribute. -/
inductive Val where
  | offset (n : Nat)
  | uint64 (n : Nat)
  | int64 (i : Int)
  | bytes (v : Bytes)
  | string (t : Text)
  | bool (b : Bool)
  deriving DecidableEq, Repr

/-- The attributes of an entry of a variable. -/
structure Entry where
  type : Option Val
  name : Option Val
  location : Option Val
  abstractOrigin : Option Val
  deriving DecidableEq, Repr

/-- The entries and types of a module, by their offsets. -/
structure Data where
  entryAt : Nat → Option Entry
  typeAt : Nat → Option TypeRef

/-- The assertion that a value is an offset. -/
def Val.toOffset : Val → Except Fault Nat
  | .offset n => .ok n
  | _ => .error .panic

def Val.toText : Val → Except Fault Text
  | .string t => .ok t
  | _ => .error .panic

/-- The attributes, with those of the abstract origin where the name or the location is missing. -/
def Entry.resolve (d : Data) (e : Entry) : Except Fault Entry :=
  if e.name = none ∨ e.location = none then
    match e.abstractOrigin with
    | none => .ok e
    | some origin => do
      match d.entryAt (← origin.toOffset) with
      | none => return e
      | some o => return { e with
          name := e.name <|> o.name
          type := e.type <|> o.type
          location := e.location <|> o.location }
  else .ok e

/-- The location of a variable; `none` is an error. -/
def locationOf : Val → Except Fault (Option MemoryLocation)
  | .uint64 v => .ok (some ⟨.local_, v % 2 ^ 32⟩)
  | .bytes [] => .ok none
  | .bytes (b :: rest) =>
    if b = 145 then .ok (some ⟨.local_, parseLEB128 rest % 2 ^ 32⟩)
    else match rest with
      | [] => .error .panic
      | _ :: rest => .ok (some ⟨.directLocal, parseLEB128 rest % 2 ^ 32⟩)
  | _ => .ok none

/-- The record of a variable; `none` is an error. -/
def indexVariable (d : Data) (e : Entry) (lowPC highPC : Nat) :
    Except Fault (Option VariableRecord) := do
  let e ← e.resolve d
  match e.name, e.location with
  | some name, some location =>
    let varName ← name.toText
    match e.type with
    | none => throw .panic
    | some type =>
      let varType := d.typeAt (← type.toOffset)
      let varLocation ← locationOf location
      return varLocation.map fun l => {
        name := varName, location := l, type := varType
        lowPC, highPC := (highPC + (2 ^ 64 - 1)) % 2 ^ 64 }
  | _, _ => return none

/-- The base of the frame of a function; `none` is an error. -/
def frameBaseOf (v : Bytes) : Option MemoryLocation :=
  match v with
  | _ :: typ :: rest =>
    if typ = 0 then some ⟨.local_, parseLEB128 rest % 2 ^ 32⟩
    else if typ = 1 then some ⟨.global, parseLEB128 rest % 2 ^ 32⟩
    else if typ = 3 then
      if v.length < 6 then none else some ⟨.global, LittleEndian.decode (rest.take 4)⟩
    else if typ = 2 then some ⟨.operandStack, parseLEB128 rest % 2 ^ 32⟩
    else none
  | _ => none

/-! ### Numbers -/

/-- The number that a list of bytes begins with, whatever stands behind it. -/
theorem parseFrom_eq {v rest : Bytes} {u shift res : Nat} (h : Varint.unsigned v = some u)
    (hres : res < 2 ^ 64) : parseFrom shift res (v ++ rest) = (res + u * 2 ^ shift) % 2 ^ 64 := by
  induction v generalizing u shift res with
  | nil => cases h
  | cons b v ih =>
    have hb := b.toNat_lt
    rw [Varint.unsigned] at h
    rw [List.cons_append, parseFrom]
    split at h
    · next hlast =>
      rw [if_pos hlast, Nat.mod_eq_of_lt hlast]
      split at h
      · cases h
        rfl
      · cases h
    · next hmore =>
      obtain ⟨u', hu', rfl⟩ := Option.map_eq_some_iff.mp h
      have hpayload : b.toNat % 128 = b.toNat - 128 := by omega
      rw [if_neg hmore, ih hu' (Nat.mod_lt _ (by decide)), hpayload, Nat.mod_add_mod]
      congr 1
      rw [pow_add]
      ring

theorem parseLEB128_index {v : Bytes} {u : Nat} (rest : Bytes) (h : Varint.unsigned v = some u) :
    parseLEB128 (v ++ rest) % 2 ^ 32 = u % 2 ^ 32 := by
  rw [parseLEB128, parseFrom_eq h (by decide), pow_zero, Nat.mul_one, Nat.zero_add]
  omega

/-- The index that is read for a signed number stands for the number itself exactly if there is no
sign, or it lies behind the 32 bits. -/
theorem signed_index_iff {v : Bytes} {n : Int} (h : Varint.signed v = some n) :
    ((parseLEB128 v % 2 ^ 32 : Nat) : Int) = n % 2 ^ 32 ↔ 0 ≤ n ∨ 5 ≤ v.length := by
  obtain ⟨u, hu, heq⟩ := Varint.unsigned_of_signed h
  have hindex := parseLEB128_index [] hu
  rw [List.append_nil] at hindex
  rw [hindex]
  by_cases hneg : n < 0
  · rw [if_pos hneg] at heq
    have hpower : ((2 : Int) ^ 32 ∣ 128 ^ v.length) ↔ 5 ≤ v.length := by
      constructor
      · intro hdvd
        by_contra hshort
        have hcases : v.length = 0 ∨ v.length = 1 ∨ v.length = 2 ∨ v.length = 3 ∨ v.length = 4 := by
          omega
        rcases hcases with hlen | hlen | hlen | hlen | hlen <;> rw [hlen] at hdvd <;> revert hdvd <;>
          decide
      · intro hlong
        exact dvd_trans (by decide : (2 : Int) ^ 32 ∣ 128 ^ 5) (pow_dvd_pow 128 hlong)
    rw [or_iff_right (not_le.mpr hneg), ← hpower, Int.natCast_mod, heq]
    push_cast
    rw [Int.emod_eq_emod_iff_emod_sub_eq_zero, ← Int.dvd_iff_emod_eq_zero, add_sub_cancel_left]
  · rw [if_neg hneg, add_zero] at heq
    refine iff_of_true ?_ (.inl (not_lt.mp hneg))
    rw [← heq]
    norm_cast

/-! ### The address -/

/-- The expression gives a local or a global, by its index, as the base of a frame. There may be more
behind the index, such as `DW_OP_stack_value`. -/
inductive IsFrameBase : Bytes → LocationType → Nat → Prop where
  | local_ {enc : Bytes} {i : Nat} (rest : Bytes) (h : Varint.unsigned enc = some i) :
      IsFrameBase (0xed :: 0 :: (enc ++ rest)) .local_ i
  | global {enc : Bytes} {i : Nat} (rest : Bytes) (h : Varint.unsigned enc = some i) :
      IsFrameBase (0xed :: 1 :: (enc ++ rest)) .global i
  | global32 {i : Nat} (rest : Bytes) :
      IsFrameBase (0xed :: 3 :: (LittleEndian.encode 4 i ++ rest)) .global i

theorem frameBaseOf_eq {expr : Bytes} {typ : LocationType} {i : Nat} (h : IsFrameBase expr typ i)
    (hi : i < 2 ^ 32) : frameBaseOf expr = some ⟨typ, i⟩ := by
  cases h with
  | local_ rest h =>
    rw [frameBaseOf, if_pos rfl, parseLEB128_index rest h, Nat.mod_eq_of_lt hi]
  | global rest h =>
    rw [frameBaseOf, if_neg (by decide), if_pos rfl, parseLEB128_index rest h, Nat.mod_eq_of_lt hi]
  | global32 rest =>
    rw [frameBaseOf, if_neg (by decide), if_neg (by decide), if_pos rfl, if_neg,
      List.take_left' (LittleEndian.length_encode 4 i), LittleEndian.decode_encode_of_lt hi]
    rw [List.length_cons, List.length_cons, List.length_append, LittleEndian.length_encode]
    omega

/-- What a local or a global holds. A local that the reader does not know of was never set. -/
def baseValue (h : Hook) (locals : List UInt64) : LocationType → Nat → Nat
  | .global, i => (h.globals.getD i 0).toNat
  | _, i => (locals.getD i 0).toNat

/-- The variable is read at the address. -/
def ReadsAt (h : Hook) (locals : List UInt64) (frameBase : MemoryLocation) (v : VariableRecord)
    (addr : Nat) : Prop :=
  ∀ r, h.address locals frameBase v r = .ok (some addr) r

/-- The location expression of a variable, its own or that of its abstract origin. -/
def HasLocation (d : Data) (e : Entry) (expr : Bytes) : Prop :=
  ∀ e', e.resolve d = .ok e' → e'.location = some (.bytes expr)

/-- The entry is that of a variable with a name and a type, its own or those of its abstract origin. -/
def Described (d : Data) (e : Entry) : Prop :=
  ∃ e', e.resolve d = .ok e' ∧ (∃ t, e'.name = some (.string t)) ∧ ∃ o, e'.type = some (.offset o)

theorem indexVariable_fbreg {d : Data} {e : Entry} {enc : Bytes} (he : Described d e)
    (h : HasLocation d e (145 :: enc)) (lowPC highPC : Nat) :
    ∃ v, indexVariable d e lowPC highPC = .ok (some v) ∧
      v.location = ⟨.local_, parseLEB128 enc % 2 ^ 32⟩ := by
  obtain ⟨e', hresolve, ⟨t, hname⟩, o, htype⟩ := he
  refine ⟨⟨lowPC, (highPC + (2 ^ 64 - 1)) % 2 ^ 64, t, ⟨.local_, parseLEB128 enc % 2 ^ 32⟩,
    d.typeAt o⟩, ?_, rfl⟩
  simp only [indexVariable, hresolve, Fallible.ok_bind, hname, h e' hresolve, htype]
  rfl

theorem not_direct {v : VariableRecord} {index : Nat} (hv : v.location = ⟨.local_, index⟩) :
    ¬ v.location.typ = .directLocal := by
  rw [hv]
  rintro ⟨⟩

theorem readsAt_local {h : Hook} {locals : List UInt64} {i index addr : Nat} {v : VariableRecord}
    (hv : v.location = ⟨.local_, index⟩) :
    ReadsAt h locals ⟨.local_, i⟩ v addr ↔
      i < locals.length ∧ ((locals.getD i 0).toNat + index) % 2 ^ 32 = addr := by
  rw [ReadsAt, Hook.address, if_neg (not_direct hv), hv]
  dsimp only
  by_cases hi : i < locals.length
  · rw [List.getD_eq_getElem?_getD, List.getElem?_eq_getElem hi]
    constructor
    · intro hreads
      cases hreads ⟨[], fun _ => []⟩
      exact ⟨hi, rfl⟩
    · rintro ⟨-, rfl⟩ r
      rfl
  · rw [List.getElem?_eq_none (not_lt.mp hi)]
    refine ⟨fun hreads => ?_, fun hlt => absurd hlt.1 hi⟩
    cases hreads ⟨[], fun _ => []⟩

theorem readsAt_global {h : Hook} {locals : List UInt64} {i index addr : Nat} {v : VariableRecord}
    (hv : v.location = ⟨.local_, index⟩) (hi : i < h.globals.length) :
    ReadsAt h locals ⟨.global, i⟩ v addr ↔ (h.globals.getD i 0).toNat % 2 ^ 32 = addr := by
  rw [ReadsAt, Hook.address, if_neg (not_direct hv)]
  dsimp only
  rw [List.getD_eq_getElem?_getD, List.getElem?_eq_getElem hi]
  constructor
  · intro hreads
    cases hreads ⟨[], fun _ => []⟩
    rfl
  · rintro rfl r
    rfl

/-! ### Panics -/

/-- The attributes are of the classes that are asserted, and the expression is an offset in the frame
or long enough for an operation with its operand. -/
def Indexable (d : Data) (e : Entry) (v : Bytes) : Prop :=
  ∃ e', e.resolve d = .ok e' ∧ ∀ name, e'.name = some name →
    (∃ t, name = .string t) ∧ (∃ o, e'.type = some (.offset o)) ∧ (v.head? = some 145 ∨ 2 ≤ v.length)

theorem locationOf_ok_iff {v : Bytes} (hv : v ≠ []) :
    (∃ l, locationOf (.bytes v) = .ok l) ↔ v.head? = some 145 ∨ 2 ≤ v.length := by
  match v, hv with
  | [b], _ =>
    rw [locationOf]
    by_cases hb : b = 145
    · subst hb
      exact iff_of_true ⟨_, rfl⟩ (.inl rfl)
    · rw [if_neg hb]
      refine iff_of_false ?_ ?_
      · rintro ⟨l, hl⟩
        cases hl
      · rintro (h | h)
        · exact hb (Option.some.inj h)
        · rw [List.length_singleton] at h
          omega
  | b :: b' :: rest, _ =>
    refine iff_of_true ?_ (.inr (by rw [List.length_cons, List.length_cons]; omega))
    rw [locationOf]
    split
    · exact ⟨_, rfl⟩
    · exact ⟨_, rfl⟩

/-- **What makes the index of a variable panic.** -/
theorem indexVariable_ok_iff {d : Data} {e : Entry} {v : Bytes} (lowPC highPC : Nat)
    (hlocation : HasLocation d e v) (hv : v ≠ []) :
    (∃ x, indexVariable d e lowPC highPC = .ok x) ↔ Indexable d e v := by
  rw [Indexable]
  cases hresolve : e.resolve d with
  | error fault =>
    refine iff_of_false ?_ ?_
    · rintro ⟨x, hx⟩
      rw [indexVariable, hresolve] at hx
      cases hx
    · rintro ⟨e', he', -⟩
      cases he'
  | ok e' =>
    have hlocation' := hlocation e' hresolve
    have hmove : (∃ e'', (Except.ok e' : Except Fault Entry) = .ok e'' ∧ ∀ name,
        e''.name = some name → (∃ t, name = .string t) ∧ (∃ o, e''.type = some (.offset o)) ∧
          (v.head? = some 145 ∨ 2 ≤ v.length)) ↔
        ∀ name, e'.name = some name → (∃ t, name = .string t) ∧ (∃ o, e'.type = some (.offset o)) ∧
          (v.head? = some 145 ∨ 2 ≤ v.length) := by
      constructor
      · rintro ⟨e'', heq, h⟩
        cases heq
        exact h
      · exact fun h => ⟨e', rfl, h⟩
    rw [hmove, indexVariable, hresolve, Fallible.ok_bind, hlocation', ← locationOf_ok_iff hv]
    cases hname : e'.name with
    | none => exact iff_of_true ⟨none, rfl⟩ nofun
    | some name =>
      dsimp only
      constructor
      · rintro ⟨x, hx⟩ name' heq
        cases heq
        obtain ⟨t, ht, hx⟩ := Fallible.bind_eq_ok.mp hx
        cases htype : e'.type with
        | none =>
          rw [htype] at hx
          cases hx
        | some type =>
          rw [htype] at hx
          obtain ⟨o, ho, hx⟩ := Fallible.bind_eq_ok.mp hx
          obtain ⟨l, hl, -⟩ := Fallible.bind_eq_ok.mp hx
          refine ⟨?_, ?_, l, hl⟩
          · cases name with
            | string t => exact ⟨t, rfl⟩
            | _ => cases ht
          · cases type with
            | offset o => exact ⟨o, rfl⟩
            | _ => cases ho
      · intro h
        obtain ⟨⟨t, rfl⟩, ⟨o, htype⟩, l, hl⟩ := h name rfl
        refine ⟨l.map fun l => ⟨lowPC, (highPC + (2 ^ 64 - 1)) % 2 ^ 64, t, l, d.typeAt o⟩, ?_⟩
        rw [htype]
        change locationOf (.bytes v) >>= _ = _
        rw [hl]
        rfl

/-- A module without other entries. -/
def plainData : Data := ⟨fun _ => none, fun _ => some 0⟩

/-- A variable with a location expression. -/
def plainEntry (expr : Bytes) : Entry :=
  ⟨some (.offset 0), some (.string "x".toList), some (.bytes expr), none⟩

/-- A hook in a module whose stack pointer is in the first global. -/
def plainHook : Hook := ⟨0, none, [65536], fun _ => none⟩

/-- A variable of an inlined function, whose name and type are those of its origin. -/
def inlinedEntry : Entry := ⟨none, none, some (.bytes [145, 16]), some (.offset 7)⟩

def inlinedData : Data := { plainData with entryAt := fun _ => some (plainEntry []) }

/-- What is indexed for an offset in a frame. -/
def plainVariable (index : Nat) : VariableRecord :=
  ⟨0, 2 ^ 64 - 1, "x".toList, ⟨.local_, index⟩, some 0⟩

end Wasmdebug
