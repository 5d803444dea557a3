import WasmRecorder.Lib.LittleEndian
import WasmRecorder.Lib.Slice

/-!
# Slices that fault

A computation over slices has three outcomes: a value, an error it reports, and a panic, which
is what an access outside a slice, or a request for a slice that cannot be allocated, leads to.

* `sub`, `rest`, `elemAt` — a stretch of a slice, its rest, and one of its elements; `Cells` is a slice
  whose elements are written one by one.
* `make`, `put` — checked allocation, and writing a stretch in place; `put_append` says what that
  does to a list put together from parts.
* `Safe` — the computations that do not panic; `Safe.bind` and `safe_foldlM` put them together, and
  `foldlM_eq_panic` says where a fold panics.
-/

namespace Checked

open LittleEndian Slice

/-- What a computation ends with when it has no value. -/
inductive Fault (ε : Type) where
  | panic
  | error (e : ε)
  deriving DecidableEq, Repr

/-- A computation that comes back unless it panics. -/
abbrev Call (α : Type) := Except (Fault Empty) α

/-- A computation whose errors are reported as others. -/
def mapFault {ε ε' α : Type} (f : ε → ε') : Except (Fault ε) α → Except (Fault ε') α
  | .ok a => .ok a
  | .error .panic => .error .panic
  | .error (.error e) => .error (.error (f e))

variable {ε α : Type} {b src : List α} {i j off : Nat}

/-- The stretch `b[i:j]`. -/
def sub (b : List α) (i j : Nat) : Except (Fault ε) (List α) :=
  if i ≤ j ∧ j ≤ b.length then .ok (slice b i j) else .error .panic

theorem sub_eq (hij : i ≤ j) (hj : j ≤ b.length) :
    (sub b i j : Except (Fault ε) (List α)) = .ok (slice b i j) := if_pos ⟨hij, hj⟩

theorem length_of_sub_eq_ok {r : List α} (h : (sub b i j : Except (Fault ε) (List α)) = .ok r) :
    r.length = j - i := by
  rw [sub] at h
  split at h
  · next hij =>
    cases h
    exact length_slice hij.2
  · cases h

/-- The rest `b[k:]`. -/
def rest (b : List α) (k : Int) : Except (Fault ε) (List α) :=
  if 0 ≤ k then sub b k.toNat b.length else .error .panic

/-- The element `b[k]`. -/
def elemAt (b : List α) (k : Int) : Except (Fault ε) α :=
  match if 0 ≤ k then b[k.toNat]? else none with
  | some a => .ok a
  | none => .error .panic

/-- A slice by its length and its elements, for loops that write one element after the other. -/
structure Cells (α : Type) where
  len : Nat
  elem : Nat → α

namespace Cells

variable {a : Cells α} {i : Nat}

def get (a : Cells α) (i : Int) : Except (Fault ε) α :=
  if 0 ≤ i ∧ i < a.len then .ok (a.elem i.toNat) else .error .panic

def set (a : Cells α) (i : Int) (x : α) : Except (Fault ε) (Cells α) :=
  if 0 ≤ i ∧ i < a.len then .ok ⟨a.len, Function.update a.elem i.toNat x⟩ else .error .panic

/-- `append(a, make([]T, n - len(a))...)`. -/
def extend (a : Cells α) (n : Nat) (zero : α) : Cells α :=
  ⟨n, fun i => if i < a.len then a.elem i else zero⟩

theorem get_nat (h : i < a.len) : (a.get i : Except (Fault ε) α) = .ok (a.elem i) :=
  if_pos ⟨Int.natCast_nonneg i, Int.ofNat_lt.mpr h⟩

theorem set_nat (h : i < a.len) (x : α) :
    (a.set i x : Except (Fault ε) (Cells α)) = .ok ⟨a.len, Function.update a.elem i x⟩ :=
  if_pos ⟨Int.natCast_nonneg i, Int.ofNat_lt.mpr h⟩

end Cells

/-- A new slice of `n` elements of `size` bytes each. -/
def make (maxAlloc size n : Nat) (zero : α) : Except (Fault ε) (List α) :=
  if n * size ≤ maxAlloc then .ok (List.replicate n zero) else .error .panic

/-- Write `src` over the stretch that begins at `off`. -/
def put (b : List α) (off : Nat) (src : List α) : Except (Fault ε) (List α) :=
  if off + src.length ≤ b.length then .ok (b.take off ++ src ++ b.drop (off + src.length))
  else .error .panic

theorem put_eq (h : off + src.length ≤ b.length) :
    (put b off src : Except (Fault ε) (List α)) =
      .ok (b.take off ++ src ++ b.drop (off + src.length)) := if_pos h

theorem put_append {before old after : List α} (hoff : before.length = off)
    (hold : old.length = src.length) :
    (put (before ++ (old ++ after)) off src : Except (Fault ε) (List α)) =
      .ok (before ++ (src ++ after)) := by
  rw [put_eq (by rw [List.length_append, List.length_append]; omega), List.take_left' hoff,
    ← List.append_assoc before, List.drop_left' (by rw [List.length_append]; omega),
    List.append_assoc]

theorem put_blank {before after : List α} {blank : α} {m : Nat} (hoff : before.length = off)
    (hm : src.length ≤ m) :
    (put (before ++ (List.replicate m blank ++ after)) off src : Except (Fault ε) (List α)) =
      .ok (before ++ src ++ (List.replicate (m - src.length) blank ++ after)) := by
  have hsplit : List.replicate m blank =
      List.replicate src.length blank ++ List.replicate (m - src.length) blank := by
    rw [← List.replicate_add, Nat.add_sub_cancel' hm]
  rw [hsplit, List.append_assoc, put_append hoff List.length_replicate, List.append_assoc]

/-- Write fields one behind the other. -/
def putFields (b : List α) (off : Nat) : List (List α) → Except (Fault ε) (List α)
  | [] => .ok b
  | [field] => put b off field
  | field :: fields => do
    let b ← put b off field
    putFields b (off + field.length) fields

theorem putFields_blank {before after : List α} {blank : α} {m : Nat} (fields : List (List α))
    (hoff : before.length = off) (hm : fields.flatten.length ≤ m) :
    (putFields (before ++ (List.replicate m blank ++ after)) off fields :
        Except (Fault ε) (List α)) =
      .ok (before ++ fields.flatten ++
        (List.replicate (m - fields.flatten.length) blank ++ after)) := by
  induction fields generalizing before off m with
  | nil =>
    rw [List.flatten_nil, List.append_nil]
    rfl
  | cons field fields ih =>
    rw [List.flatten_cons, List.length_append] at hm ⊢
    cases fields with
    | nil =>
      rw [putFields, put_blank hoff (by omega), List.flatten_nil, List.append_nil]
      rfl
    | cons next fields =>
      rw [putFields, put_blank hoff (by omega)]
      · dsimp only [bind, Except.bind]
        rw [ih (by rw [List.length_append, hoff]) (by omega), List.append_assoc before,
          Nat.sub_sub]
      · exact List.cons_ne_nil _ _

/-! ### Words -/

def uint16 (b : List UInt8) (off : Nat) : Except (Fault ε) UInt16 :=
  if off + 2 ≤ b.length then .ok (u16At b off) else .error .panic

def uint32 (b : List UInt8) (off : Nat) : Except (Fault ε) UInt32 :=
  if off + 4 ≤ b.length then .ok (u32At b off) else .error .panic

def uint64 (b : List UInt8) (off : Nat) : Except (Fault ε) UInt64 :=
  if off + 8 ≤ b.length then .ok (u64At b off) else .error .panic

section

variable {b : List UInt8}

theorem u16At_slice {i j off : Nat} (h : i + off + 2 ≤ j) :
    u16At (slice b i j) off = u16At b (i + off) := by
  have hcut : (b.take j).take j = b.take j := by rw [List.take_take, Nat.min_self]
  rw [u16At, u16At, slice, List.drop_drop, take_drop_of_take hcut h]

theorem u32At_slice {i j off : Nat} (h : i + off + 4 ≤ j) :
    u32At (slice b i j) off = u32At b (i + off) := by
  have hcut : (b.take j).take j = b.take j := by rw [List.take_take, Nat.min_self]
  rw [u32At, u32At, slice, List.drop_drop, take_drop_of_take hcut h]

theorem u32At_eq_iff {off : Nat} {v : UInt32} (h : off + 4 ≤ b.length) :
    u32At b off = v ↔ slice b off (off + 4) = le32 v := by
  have hslice : slice b off (off + 4) = (b.drop off).take 4 := by
    rw [slice, List.drop_take, Nat.add_sub_cancel_left]
  rw [hslice]
  constructor
  · rintro rfl
    exact (le32_u32At h).symm
  · intro heq
    rw [u32At, heq, le32, decode_encode_of_lt v.toNat_lt, UInt32.ofNat_toNat]

theorem u64At_slice {i j off : Nat} (h : i + off + 8 ≤ j) :
    u64At (slice b i j) off = u64At b (i + off) := by
  have hcut : (b.take j).take j = b.take j := by rw [List.take_take, Nat.min_self]
  rw [u64At, u64At, slice, List.drop_drop, take_drop_of_take hcut h]

theorem length_of_drop {α : Type} {b x rest : List α} {off : Nat} (h : b.drop off = x ++ rest)
    (hx : 0 < x.length) : off + x.length ≤ b.length := by
  have hlen := congrArg List.length h
  rw [List.length_drop, List.length_append] at hlen
  omega

theorem uint16_of_drop {x : UInt16} {rest : List UInt8} (h : b.drop off = le16 x ++ rest) :
    (uint16 b off : Except (Fault ε) UInt16) = .ok x := by
  have hlen := length_of_drop h (by rw [length_le16]; omega)
  rw [length_le16] at hlen
  rw [uint16, if_pos hlen, u16At, h, List.take_left' (length_le16 x), le16,
    decode_encode_of_lt x.toNat_lt, UInt16.ofNat_toNat]

theorem uint32_of_drop {x : UInt32} {rest : List UInt8} (h : b.drop off = le32 x ++ rest) :
    (uint32 b off : Except (Fault ε) UInt32) = .ok x := by
  have hlen := length_of_drop h (by rw [length_le32]; omega)
  rw [length_le32] at hlen
  rw [uint32, if_pos hlen, u32At, h, List.take_left' (length_le32 x), le32,
    decode_encode_of_lt x.toNat_lt, UInt32.ofNat_toNat]

theorem uint64_of_drop {x : UInt64} {rest : List UInt8} (h : b.drop off = le64 x ++ rest) :
    (uint64 b off : Except (Fault ε) UInt64) = .ok x := by
  have hlen := length_of_drop h (by rw [length_le64]; omega)
  rw [length_le64] at hlen
  rw [uint64, if_pos hlen, u64At, h, List.take_left' (length_le64 x), le64,
    decode_encode_of_lt x.toNat_lt, UInt64.ofNat_toNat]

theorem uint16_eq (h : off + 2 ≤ b.length) :
    (uint16 b off : Except (Fault ε) UInt16) = .ok (u16At b off) := if_pos h

theorem uint32_eq (h : off + 4 ≤ b.length) :
    (uint32 b off : Except (Fault ε) UInt32) = .ok (u32At b off) := if_pos h

theorem uint64_eq (h : off + 8 ≤ b.length) :
    (uint64 b off : Except (Fault ε) UInt64) = .ok (u64At b off) := if_pos h

end

/-! ### Computations that do not panic -/

/-- A computation that ends with a value or reports an error. -/
def Safe (x : Except (Fault ε) α) : Prop := x ≠ .error .panic

section Safe

variable {β ε' S : Type} {x : Except (Fault ε) α}

theorem safe_ok (a : α) : Safe (.ok a : Except (Fault ε) α) := nofun

theorem safe_error (e : ε) : Safe (.error (.error e) : Except (Fault ε) α) := nofun

theorem safe_ite {P : Prop} [Decidable P] {y : Except (Fault ε) α} (hx : P → Safe x)
    (hy : ¬ P → Safe y) : Safe (if P then x else y) := by
  split
  · next h => exact hx h
  · next h => exact hy h

theorem bind_eq_panic {f : α → Except (Fault ε) β} :
    x >>= f = .error .panic ↔ x = .error .panic ∨ ∃ a, x = .ok a ∧ f a = .error .panic := by
  cases x with
  | error e => simp [bind, Except.bind]
  | ok a => simp [bind, Except.bind]

theorem Safe.bind {f : α → Except (Fault ε) β} (hx : Safe x) (hf : ∀ a, x = .ok a → Safe (f a)) :
    Safe (x >>= f) := by
  intro h
  rcases bind_eq_panic.mp h with h | ⟨a, ha, h⟩
  · exact hx h
  · exact hf a ha h

theorem mapFault_eq_panic {f : ε → ε'} : mapFault f x = .error .panic ↔ x = .error .panic := by
  match x with
  | .ok a => simp [mapFault]
  | .error .panic => simp [mapFault]
  | .error (.error e) => simp [mapFault]

theorem mapFault_eq_ok {f : ε → ε'} {a : α} : mapFault f x = .ok a ↔ x = .ok a := by
  match x with
  | .ok a => simp [mapFault]
  | .error .panic => simp [mapFault]
  | .error (.error e) => simp [mapFault]

theorem mapFault_bind {f : ε → ε'} {g : α → Except (Fault ε) β} :
    mapFault f (x >>= g) = mapFault f x >>= fun a => mapFault f (g a) := by
  match x with
  | .ok a => rfl
  | .error .panic => rfl
  | .error (.error e) => rfl

theorem safe_mapFault {f : ε → ε'} : Safe (mapFault f x) ↔ Safe x := not_congr mapFault_eq_panic

theorem safe_sub (hij : i ≤ j) (hj : j ≤ b.length) :
    Safe (sub b i j : Except (Fault ε) (List α)) := by
  rw [sub_eq hij hj]
  exact safe_ok _

theorem safe_uint16 {b : List UInt8} (h : off + 2 ≤ b.length) :
    Safe (uint16 b off : Except (Fault ε) UInt16) := by
  rw [uint16_eq h]
  exact safe_ok _

theorem safe_uint32 {b : List UInt8} (h : off + 4 ≤ b.length) :
    Safe (uint32 b off : Except (Fault ε) UInt32) := by
  rw [uint32_eq h]
  exact safe_ok _

theorem safe_uint64 {b : List UInt8} (h : off + 8 ≤ b.length) :
    Safe (uint64 b off : Except (Fault ε) UInt64) := by
  rw [uint64_eq h]
  exact safe_ok _

theorem safe_mapM {f : α → Except (Fault ε) β} {l : List α} (h : ∀ a ∈ l, Safe (f a)) :
    Safe (l.mapM f) := by
  induction l with
  | nil => exact safe_ok []
  | cons a l ih =>
    rw [List.mapM_cons]
    refine (h a List.mem_cons_self).bind fun b _ => Safe.bind ?_ fun bs _ => safe_ok _
    exact ih fun a' ha' => h a' (List.mem_cons_of_mem a ha')

theorem safe_foldlM {f : S → α → Except (Fault ε) S} {l : List α}
    (h : ∀ s, ∀ a ∈ l, Safe (f s a)) (s : S) : Safe (l.foldlM f s) := by
  induction l generalizing s with
  | nil => exact safe_ok s
  | cons a l ih =>
    rw [List.foldlM_cons]
    exact (h s a List.mem_cons_self).bind fun s' _ =>
      ih (fun s a' ha' => h s a' (List.mem_cons_of_mem a ha')) s'

/-- An invariant of a loop that counts to `n` and does not panic. -/
theorem foldlM_range {f : S → Nat → Except (Fault ε) S} (I : Nat → S → Prop) {n : Nat} {s : S}
    (hs : I 0 s)
    (hstep : ∀ i s, i < n → I i s → Safe (f s i) ∧ ∀ s', f s i = .ok s' → I (i + 1) s') :
    Safe ((List.range n).foldlM f s) ∧ ∀ s', (List.range n).foldlM f s = .ok s' → I n s' := by
  induction n with
  | zero => exact ⟨safe_ok s, fun s' h => Except.ok.inj h ▸ hs⟩
  | succ n ih =>
    obtain ⟨hsafe, hinv⟩ := ih fun i s hi => hstep i s (Nat.lt_succ_of_lt hi)
    rw [List.range_succ, List.foldlM_append]
    generalize (List.range n).foldlM f s = x at hsafe hinv ⊢
    match x with
    | .error (.error e) => exact ⟨safe_error e, nofun⟩
    | .error .panic => exact absurd rfl hsafe
    | .ok s' =>
      change Safe ([n].foldlM f s') ∧ _
      rw [List.foldlM_cons]
      obtain ⟨hsafe', hinv'⟩ := hstep n s' n.lt_succ_self (hinv s' rfl)
      refine ⟨hsafe'.bind fun s'' _ => safe_ok s'', fun s'' h => ?_⟩
      exact hinv' s'' ((bind_pure (f s' n)).symm.trans h)

theorem foldlM_eq_panic {f : S → α → Except (Fault ε) S} (I : S → Prop) {F W : α → Prop}
    (hF : ∀ s a, I s → ((∃ s', f s a = .ok s') ↔ F a))
    (hI : ∀ s a s', I s → f s a = .ok s' → I s')
    (hW : ∀ s a, I s → (f s a = .error .panic ↔ W a)) {l : List α} {s : S} (hs : I s) :
    l.foldlM f s = .error .panic ↔
      ∃ before a after, l = before ++ a :: after ∧ (∀ a' ∈ before, F a') ∧ W a := by
  induction l generalizing s with
  | nil =>
    refine ⟨nofun, ?_⟩
    rintro ⟨before, a, after, h, -⟩
    cases before with
    | nil => cases h
    | cons b before => cases h
  | cons a l ih =>
    rw [List.foldlM_cons, bind_eq_panic]
    constructor
    · rintro (h | ⟨s', hok, h⟩)
      · exact ⟨[], a, l, rfl, nofun, (hW s a hs).mp h⟩
      · obtain ⟨before, b, after, rfl, hbefore, hb⟩ := (ih (hI s a s' hs hok)).mp h
        refine ⟨a :: before, b, after, rfl, fun a' ha' => ?_, hb⟩
        rcases List.mem_cons.mp ha' with rfl | ha'
        · exact (hF s a' hs).mp ⟨s', hok⟩
        · exact hbefore a' ha'
    · rintro ⟨before, b, after, heq, hbefore, hb⟩
      cases before with
      | nil =>
        cases heq
        exact .inl ((hW s a hs).mpr hb)
      | cons a' before =>
        cases heq
        obtain ⟨s', hok⟩ := (hF s a hs).mpr (hbefore a List.mem_cons_self)
        exact .inr ⟨s', hok, (ih (hI s a s' hs hok)).mpr
          ⟨before, b, after, rfl, fun c hc => hbefore c (List.mem_cons_of_mem a hc), hb⟩⟩

end Safe

end Checked
