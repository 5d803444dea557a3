import Mathlib

/-!
# Numbers in base 128

A number as bytes of seven bits each, the lowest first. All bytes but the last have their high bit
set. A signed number is negative if the last byte has its bit 6 set.

* `unsigned`, `signed` — the number that some bytes stand for, if they are one number.
* `Terminated`, `unsigned_iff`, `signed_iff` — a number is some bytes that go on and one that does
  not, and stands for the bits of the former and the digit of the latter.
* `signExtend_eq`, `add_mul_emod` — the bits of such a number in a word, and its place values.
* `encode`, `encodeSigned` — the shortest bytes of a number (`length_encode_le`).
-/

namespace Varint

def unsigned : List UInt8 → Option Nat
  | [] => none
  | b :: rest =>
    if b.toNat < 128 then if rest = [] then some b.toNat else none
    else (unsigned rest).map fun n => b.toNat - 128 + 128 * n

def signed : List UInt8 → Option Int
  | [] => none
  | b :: rest =>
    if b.toNat < 128 then
      if rest = [] then some (if b.toNat < 64 then b.toNat else b.toNat - 128) else none
    else (signed rest).map fun n => b.toNat - 128 + 128 * n

theorem unsigned_of_signed {bytes : List UInt8} {n : Int} (h : signed bytes = some n) :
    ∃ u, unsigned bytes = some u ∧ (u : Int) = n + if n < 0 then 128 ^ bytes.length else 0 := by
  induction bytes generalizing n with
  | nil => cases h
  | cons b rest ih =>
    have hb := b.toNat_lt
    rw [signed] at h
    rw [unsigned]
    split at h
    · next hlast =>
      rw [if_pos hlast]
      split at h
      · next hnil =>
        subst hnil
        cases h
        refine ⟨b.toNat, if_pos rfl, ?_⟩
        by_cases hsign : b.toNat < 64
        · rw [if_pos hsign, if_neg (by omega)]
          omega
        · rw [if_neg hsign, if_pos (by omega), List.length_singleton]
          omega
      · cases h
    · next hmore =>
      rw [if_neg hmore]
      obtain ⟨n', hn', rfl⟩ := Option.map_eq_some_iff.mp h
      obtain ⟨u, hu, heq⟩ := ih hn'
      refine ⟨b.toNat - 128 + 128 * u, by rw [hu]; rfl, ?_⟩
      have hsign : ((b.toNat : Int) - 128 + 128 * n' < 0) ↔ n' < 0 := by omega
      have hsub : ((b.toNat - 128 : Nat) : Int) = b.toNat - 128 := by omega
      rw [Nat.cast_add, hsub, Nat.cast_mul, heq, List.length_cons, pow_succ]
      by_cases hneg : n' < 0
      · rw [if_pos hneg, if_pos (hsign.mpr hneg)]
        push_cast
        ring
      · rw [if_neg hneg, if_neg (fun h' => hneg (hsign.mp h'))]
        push_cast
        ring

/-! ### Bytes that go on, and the last one -/

/-- Bytes that go on, and one that does not. -/
structure Terminated (init : List UInt8) (b : UInt8) : Prop where
  more : ∀ c ∈ init, 128 ≤ c.toNat
  last : b.toNat < 128

/-- The bits of the bytes that go on. -/
def payload : List UInt8 → Nat
  | [] => 0
  | c :: cs => c.toNat % 128 + 128 * payload cs

/-- The last digit of a signed number. -/
def digit (b : UInt8) : Int := if b.toNat < 64 then b.toNat else b.toNat - 128

/-- What bytes that go on and a last one stand for. -/
def value (init : List UInt8) (b : UInt8) : Int := payload init + digit b * 128 ^ init.length

theorem payload_lt (init : List UInt8) : payload init < 128 ^ init.length := by
  induction init with
  | nil => exact Nat.one_pos
  | cons c cs ih =>
    rw [payload, List.length_cons, pow_succ]
    omega

theorem Terminated.nil {b : UInt8} (h : b.toNat < 128) : Terminated [] b :=
  ⟨fun _ hc => absurd hc List.not_mem_nil, h⟩

theorem Terminated.cons {c b : UInt8} {init : List UInt8} (hc : ¬ c.toNat < 128)
    (h : Terminated init b) : Terminated (c :: init) b :=
  ⟨List.forall_mem_cons.mpr ⟨not_lt.mp hc, h.more⟩, h.last⟩

theorem Terminated.tail {c b : UInt8} {init : List UInt8} (h : Terminated (c :: init) b) :
    128 ≤ c.toNat ∧ Terminated init b :=
  ⟨h.more c List.mem_cons_self, fun d hd => h.more d (List.mem_cons_of_mem c hd), h.last⟩

/-- A byte string is a number and more, or goes on all the way. -/
theorem exists_split (bytes : List UInt8) :
    (∃ init b rest, Terminated init b ∧ bytes = init ++ b :: rest) ∨ ∀ c ∈ bytes, 128 ≤ c.toNat := by
  induction bytes with
  | nil => exact .inr nofun
  | cons c bytes ih =>
    by_cases hc : c.toNat < 128
    · exact .inl ⟨[], c, bytes, .nil hc, rfl⟩
    · rcases ih with ⟨init, b, rest, h, rfl⟩ | h
      · exact .inl ⟨c :: init, b, rest, h.cons hc, rfl⟩
      · exact .inr (List.forall_mem_cons.mpr ⟨not_lt.mp hc, h⟩)

theorem Terminated.unique {init init' : List UInt8} {b b' : UInt8} {rest rest' : List UInt8}
    (h : Terminated init b) (h' : Terminated init' b')
    (heq : init ++ b :: rest = init' ++ b' :: rest') : init = init' ∧ b = b' ∧ rest = rest' := by
  induction init generalizing init' with
  | nil =>
    cases init' with
    | nil => cases heq; exact ⟨rfl, rfl, rfl⟩
    | cons c' init' =>
      cases heq
      have := h'.tail.1
      have := h.last
      omega
  | cons c init ih =>
    cases init' with
    | nil =>
      cases heq
      have := h.tail.1
      have := h'.last
      omega
    | cons c' init' =>
      obtain ⟨rfl, htails⟩ := List.cons.inj heq
      obtain ⟨rfl, rfl, rfl⟩ := ih h.tail.2 h'.tail.2 htails
      exact ⟨rfl, rfl, rfl⟩

theorem unsigned_iff {enc : List UInt8} {n : Nat} : unsigned enc = some n ↔ ∃ init b,
    Terminated init b ∧ enc = init ++ [b] ∧ n = payload init + b.toNat * 128 ^ init.length := by
  constructor
  · induction enc generalizing n with
    | nil => intro h; cases h
    | cons c enc ih =>
      intro h
      rw [unsigned] at h
      by_cases hc : c.toNat < 128
      · rw [if_pos hc] at h
        obtain ⟨rfl, h⟩ := Option.ite_none_right_eq_some.mp h
        exact ⟨[], c, .nil hc, rfl, by simp [← Option.some.inj h, payload]⟩
      · rw [if_neg hc] at h
        obtain ⟨m, hm, rfl⟩ := Option.map_eq_some_iff.mp h
        obtain ⟨init, b, hterm, rfl, rfl⟩ := ih hm
        have hlt := c.toNat_lt
        refine ⟨c :: init, b, hterm.cons hc, rfl, ?_⟩
        rw [payload, List.length_cons, pow_succ, show c.toNat % 128 = c.toNat - 128 by omega]
        ring
  · rintro ⟨init, b, hterm, rfl, rfl⟩
    induction init with
    | nil => simp [unsigned, payload, hterm.last]
    | cons c init ih =>
      obtain ⟨hc, htail⟩ := hterm.tail
      have hlt := c.toNat_lt
      rw [List.cons_append, unsigned, if_neg (not_lt.mpr hc), ih htail, payload, List.length_cons,
        pow_succ, show c.toNat % 128 = c.toNat - 128 by omega, Option.map_some, Option.some_inj]
      ring

theorem signed_iff {enc : List UInt8} {n : Int} : signed enc = some n ↔ ∃ init b,
    Terminated init b ∧ enc = init ++ [b] ∧ n = value init b := by
  constructor
  · induction enc generalizing n with
    | nil => intro h; cases h
    | cons c enc ih =>
      intro h
      rw [signed] at h
      by_cases hc : c.toNat < 128
      · rw [if_pos hc] at h
        obtain ⟨rfl, h⟩ := Option.ite_none_right_eq_some.mp h
        exact ⟨[], c, .nil hc, rfl, by simp [← Option.some.inj h, value, payload, digit]⟩
      · rw [if_neg hc] at h
        obtain ⟨m, hm, rfl⟩ := Option.map_eq_some_iff.mp h
        obtain ⟨init, b, hterm, rfl, rfl⟩ := ih hm
        have hlt := c.toNat_lt
        refine ⟨c :: init, b, hterm.cons hc, rfl, ?_⟩
        have hmod : ((c.toNat % 128 : Nat) : Int) = c.toNat - 128 := by omega
        rw [value, value, payload, List.length_cons, pow_succ, Nat.cast_add, hmod]
        push_cast
        ring
  · rintro ⟨init, b, hterm, rfl, rfl⟩
    induction init with
    | nil => simp [signed, value, payload, digit, hterm.last]
    | cons c init ih =>
      obtain ⟨hc, htail⟩ := hterm.tail
      have hlt := c.toNat_lt
      have hmod : ((c.toNat % 128 : Nat) : Int) = c.toNat - 128 := by omega
      rw [List.cons_append, signed, if_neg (not_lt.mpr hc), ih htail, value, value, payload,
        List.length_cons, pow_succ, Nat.cast_add, hmod, Option.map_some, Option.some_inj]
      push_cast
      ring

/-! ### Digits and words -/

theorem or_shiftLeft {r s : Nat} (h : r < 2 ^ s) (p : Nat) : r ||| (p <<< s) = r + p * 2 ^ s := by
  rw [Nat.shiftLeft_eq, Nat.or_comm, Nat.mul_comm, ← Nat.two_pow_add_eq_or_of_lt h, Nat.add_comm]

theorem or_mod (r x w : Nat) : (r % 2 ^ w ||| x) % 2 ^ w = (r ||| x) % 2 ^ w := by
  rw [Nat.or_mod_two_pow, Nat.mod_mod, ← Nat.or_mod_two_pow]

theorem two_pow_seven (n : Nat) : 2 ^ (7 * n) = 128 ^ n := by
  rw [pow_mul]
  rfl

theorem payload_lt_two_pow (init : List UInt8) : payload init < 2 ^ (7 * init.length) := by
  rw [two_pow_seven]
  exact payload_lt init

/-- A digit more does not reach the next power. -/
theorem add_mul_lt {r s d : Nat} (h : r < 2 ^ s) (hd : d < 128) : r + d * 2 ^ s < 2 ^ (s + 7) := by
  have : d * 2 ^ s ≤ 127 * 2 ^ s := Nat.mul_le_mul_right _ (by omega)
  rw [pow_add]
  omega

/-- The bits of a number that is extended by its sign, if it is narrower than the word. -/
theorem signExtend_eq {u s w : Nat} (h : u < 2 ^ s) (sign : Prop) [Decidable sign] :
    (if s < w ∧ sign then u % 2 ^ w ||| (2 ^ w - 2 ^ s) else u % 2 ^ w) =
      (((u : Int) - if sign then 2 ^ s else 0) % 2 ^ w).toNat := by
  by_cases hsign : sign
  · rw [if_pos hsign]
    rcases lt_or_ge s w with hs | hs
    · have hlt : (2 : Nat) ^ s < 2 ^ w := Nat.pow_lt_pow_right (by omega) hs
      have hfactor : 2 ^ w - 2 ^ s = (2 ^ (w - s) - 1) <<< s := by
        rw [Nat.shiftLeft_eq, Nat.sub_mul, ← pow_add, Nat.sub_add_cancel hs.le, Nat.one_mul]
      rw [if_pos ⟨hs, hsign⟩, Nat.mod_eq_of_lt (h.trans hlt), hfactor, or_shiftLeft h,
        ← Nat.shiftLeft_eq, ← hfactor]
      have hcast : ((2 ^ w : Nat) : Int) = 2 ^ w := Nat.cast_pow 2 w
      have hcast' : ((2 ^ s : Nat) : Int) = 2 ^ s := Nat.cast_pow 2 s
      rw [← Int.add_emod_right, Int.emod_eq_of_lt (by omega) (by omega)]
      omega
    · rw [if_neg (fun h' => absurd h'.1 (by omega)), show (2 : Int) ^ s = 2 ^ (s - w) * 2 ^ w by
        rw [← pow_add, Nat.sub_add_cancel hs], Int.sub_mul_emod_self_right]
      exact (Int.toNat_natCast (u % 2 ^ w)).symm.trans (by push_cast; rfl)
  · rw [if_neg (fun h' => hsign h'.2), if_neg hsign, sub_zero]
    exact (Int.toNat_natCast (u % 2 ^ w)).symm.trans (by push_cast; rfl)

/-- The last digit decides how a number compares with a multiple of its place. -/
theorem mul_le_add_mul_iff {p m d a : Int} (hp : 0 ≤ p) (hm : p < m) : a * m ≤ p + d * m ↔ a ≤ d := by
  constructor
  · intro h
    by_contra hlt
    nlinarith
  · intro h
    nlinarith

theorem add_mul_emod {p m : Int} (hp : 0 ≤ p) (hm : p < m) (d : Int) {a : Int} (ha : 0 < a) :
    (p + d * m) % (a * m) = p + (d % a) * m := by
  have hlow := Int.emod_nonneg d ha.ne'
  have hhigh := Int.emod_lt_of_pos d ha
  have hsplit : p + d * m = p + (d % a) * m + (d / a) * (a * m) := by
    nth_rewrite 1 [← Int.emod_add_mul_ediv d a]
    ring
  rw [hsplit, Int.add_mul_emod_self_right, Int.emod_eq_of_lt (by nlinarith) (by nlinarith)]

theorem digit_eq {b : UInt8} (hb : b.toNat < 128) :
    digit b = (b.toNat : Int) - if 64 ≤ b.toNat then 128 else 0 := by
  rw [digit]
  split_ifs <;> omega

theorem value_eq {init : List UInt8} {b : UInt8} (hb : b.toNat < 128) :
    value init b = ((payload init + b.toNat % 128 * 2 ^ (7 * init.length) : Nat) : Int) -
      if 64 ≤ b.toNat then 2 ^ (7 * (init.length + 1)) else 0 := by
  rw [value, digit_eq hb, Nat.mod_eq_of_lt hb, Nat.mul_succ, pow_add, two_pow_seven, pow_mul]
  split_ifs
  · push_cast
    ring
  · push_cast
    ring

theorem two_pow_place (n k : Nat) : (2 : Int) ^ (7 * n + k) = 2 ^ k * 128 ^ n := by
  rw [pow_add, pow_mul, mul_comm]
  rfl

/-! ### The shortest bytes -/

def encode (n : Nat) : List UInt8 :=
  if n < 128 then [UInt8.ofNat n] else UInt8.ofNat (n % 128 + 128) :: encode (n / 128)
termination_by n

def encodeSigned (n : Int) : List UInt8 :=
  if -64 ≤ n ∧ n < 64 then [UInt8.ofNat (n % 128).toNat]
  else UInt8.ofNat ((n % 128).toNat + 128) :: encodeSigned (n / 128)
termination_by n.natAbs

theorem unsigned_encode (n : Nat) : unsigned (encode n) = some n := by
  induction n using encode.induct with
  | case1 n hn =>
    rw [encode, if_pos hn, unsigned, UInt8.toNat_ofNat_of_lt' (by change n < 256; omega), if_pos hn]
    rfl
  | case2 n hn ih =>
    rw [encode, if_neg hn, unsigned, UInt8.toNat_ofNat_of_lt' (by change _ < 256; omega),
      if_neg (by omega), ih, Option.map_some, Option.some_inj]
    omega

theorem signed_encodeSigned (n : Int) : signed (encodeSigned n) = some n := by
  induction n using encodeSigned.induct with
  | case1 n hn =>
    rw [encodeSigned, if_pos hn, signed, UInt8.toNat_ofNat_of_lt' (by change _ < 256; omega),
      if_pos (by omega), if_pos rfl, Option.some_inj]
    split <;> omega
  | case2 n hn ih =>
    rw [encodeSigned, if_neg hn, signed, UInt8.toNat_ofNat_of_lt' (by change _ < 256; omega),
      if_neg (by omega), ih, Option.map_some, Option.some_inj]
    omega

theorem length_encode_le {bytes : List UInt8} {n : Nat} (h : unsigned bytes = some n) :
    (encode n).length ≤ bytes.length := by
  induction bytes generalizing n with
  | nil => cases h
  | cons b bytes ih =>
    have hb := b.toNat_lt
    rw [unsigned] at h
    split_ifs at h with hlast hnil
    · cases h
      rw [encode, if_pos hlast]
      exact Nat.succ_le_succ (Nat.zero_le _)
    · obtain ⟨m, hm, rfl⟩ := Option.map_eq_some_iff.mp h
      have hrest := ih hm
      rw [encode]
      split_ifs with hsmall
      · exact Nat.succ_le_succ (Nat.zero_le _)
      · rw [show (b.toNat - 128 + 128 * m) / 128 = m by omega]
        exact Nat.succ_le_succ hrest

theorem length_encodeSigned_le {bytes : List UInt8} {n : Int} (h : signed bytes = some n) :
    (encodeSigned n).length ≤ bytes.length := by
  induction bytes generalizing n with
  | nil => cases h
  | cons b bytes ih =>
    have hb := b.toNat_lt
    rw [signed] at h
    by_cases hlast : b.toNat < 128
    · rw [if_pos hlast] at h
      obtain ⟨-, h⟩ := Option.ite_none_right_eq_some.mp h
      rw [encodeSigned, if_pos (by rw [← Option.some.inj h]; split <;> omega)]
      exact Nat.succ_le_succ (Nat.zero_le _)
    · rw [if_neg hlast] at h
      obtain ⟨m, hm, rfl⟩ := Option.map_eq_some_iff.mp h
      have hrest := ih hm
      rw [encodeSigned]
      split_ifs with hsmall
      · exact Nat.succ_le_succ (Nat.zero_le _)
      · rw [show ((b.toNat : Int) - 128 + 128 * m) / 128 = m by omega]
        exact Nat.succ_le_succ hrest

/-- The length that is enough for a bound. -/
theorem length_encode_le_of_lt {n k : Nat} (h : n < 128 ^ (k + 1)) : (encode n).length ≤ k + 1 := by
  induction k generalizing n with
  | zero => rw [encode, if_pos (by omega)]; exact Nat.le_refl 1
  | succ k ih =>
    rw [encode]
    split_ifs with hn
    · exact Nat.succ_le_succ (Nat.zero_le _)
    · rw [pow_succ] at h
      exact Nat.succ_le_succ (ih (by omega))

theorem length_encodeSigned_le_of_lt {n : Int} {k : Nat} (hlow : -(64 * 128 ^ k) ≤ n)
    (hhigh : n < 64 * 128 ^ k) : (encodeSigned n).length ≤ k + 1 := by
  induction k generalizing n with
  | zero => rw [encodeSigned, if_pos (by omega)]; exact Nat.le_refl 1
  | succ k ih =>
    rw [encodeSigned]
    split_ifs with hn
    · exact Nat.succ_le_succ (Nat.zero_le _)
    · rw [pow_succ] at hlow hhigh
      exact Nat.succ_le_succ (ih (by omega) (by omega))

end Varint
