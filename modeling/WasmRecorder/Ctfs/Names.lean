import WasmRecorder.Ctfs.Container

/-!
# Base40 names are numerals

A packed name is the number whose base-40 digits, from the least significant one on, are the places
of the characters in the alphabet. Digit `0` is padding and no character of a name has it, so a name
is the list of digits of its number up to the leading zeroes, and twelve digits fit in a `u64`.

* `decodeDigits_eq` — the loop of the decoder takes the digits off again.
* `encodeName_bijective` — packing is a bijection from the valid names onto its image, and the check of
  an entry accepts exactly the numbers in that image.
-/

namespace Ctfs

/-- The characters that a name may have: all of the alphabet but padding. -/
def nameChars : Bytes := base40Alphabet.tail

/-- The names that fit. -/
def ValidName (name : Bytes) : Prop :=
  1 ≤ name.length ∧ name.length ≤ maxNameLen ∧ ∀ c ∈ name, c ∈ nameChars

/-- The place of a character in the alphabet. -/
def digitOf (c : UInt8) : Nat := base40Alphabet.idxOf c

/-- The number of a name, before it is put into a `u64`. -/
def nameNumber (name : Bytes) : Nat := Nat.ofDigits 40 (name.map digitOf)

/-! ### Digits -/

theorem base40Alphabet_length : base40Alphabet.length = 40 := by decide

theorem digitOf_pos {c : UInt8} (hc : c ∈ nameChars) : 0 < digitOf c := by
  have hzero : (0 : UInt8) ∉ nameChars := by decide +kernel
  have hne : 0 ≠ c := fun h => hzero (h ▸ hc)
  rw [digitOf, show base40Alphabet = 0 :: nameChars from rfl, List.idxOf_cons_ne _ hne]
  exact Nat.succ_pos _

theorem mem_alphabet {c : UInt8} (hc : c ∈ nameChars) : c ∈ base40Alphabet :=
  List.mem_of_mem_tail hc

theorem digitOf_lt {c : UInt8} (hc : c ∈ nameChars) : digitOf c < 40 :=
  base40Alphabet_length ▸ List.idxOf_lt_length_of_mem (mem_alphabet hc)

theorem getD_digitOf {c : UInt8} (hc : c ∈ nameChars) :
    base40Alphabet.getD (digitOf c) 0 = c := by
  have hlt := List.idxOf_lt_length_of_mem (mem_alphabet hc)
  rw [digitOf, List.getD_eq_getElem _ _ hlt]
  exact List.getElem_idxOf hlt

theorem idxOf?_of_mem {c : UInt8} (hc : c ∈ nameChars) :
    base40Alphabet.idxOf? c = some (digitOf c - 1 + 1) := by
  rw [Nat.sub_add_cancel (digitOf_pos hc), digitOf, List.idxOf_eq_getD_idxOf?]
  cases h : base40Alphabet.idxOf? c with
  | none => exact absurd (mem_alphabet hc) (List.idxOf?_eq_none_iff.mp h)
  | some i => rfl

theorem idxOf?_of_notMem {c : UInt8} (hc : c ∉ nameChars) :
    base40Alphabet.idxOf? c = none ∨ base40Alphabet.idxOf? c = some 0 := by
  by_cases hzero : c = 0
  · rw [hzero]
    exact .inr rfl
  · refine .inl (List.idxOf?_eq_none_iff.mpr fun hmem => hc ?_)
    rcases List.mem_cons.mp (show c ∈ 0 :: nameChars from hmem) with hmem | hmem
    · exact absurd hmem hzero
    · exact hmem

theorem nameNumber_cons (c : UInt8) (rest : Bytes) :
    nameNumber (c :: rest) = digitOf c + 40 * nameNumber rest := Nat.ofDigits_cons

/-! ### The loop of the encoder -/

theorem toNat_mul_scale {scale : UInt64} {k : Nat} (hk : k < 12) (hscale : scale.toNat = 40 ^ k) :
    k ≠ 11 → (scale * 40).toNat = 40 ^ (k + 1) := by
  intro hne
  have hpow : 40 ^ (k + 1) ≤ 40 ^ 11 := Nat.pow_le_pow_right (by decide) (by omega)
  have hlt : 40 ^ k * 40 < 2 ^ 64 := by
    rw [← Nat.pow_succ]
    exact lt_of_le_of_lt hpow (by decide)
  rw [UInt64.toNat_mul, hscale, Nat.pow_succ]
  exact Nat.mod_eq_of_lt hlt

theorem encodeDigits_eq {name rest : Bytes} {n k : Nat} {scale encoded : UInt64} (hk : n + k = 12)
    (hscale : n ≠ 0 → scale.toNat = 40 ^ k) (hencoded : encoded.toNat < 40 ^ k)
    (hlength : rest.length ≤ n) (hchars : ∀ c ∈ rest, c ∈ nameChars) :
    ∃ x, encodeDigits name n rest scale encoded = .ok x ∧
      x.toNat = encoded.toNat + 40 ^ k * nameNumber rest := by
  induction n generalizing rest k scale encoded with
  | zero =>
    rw [List.eq_nil_of_length_eq_zero (Nat.le_zero.mp hlength)]
    exact ⟨encoded, rfl, rfl⟩
  | succ n ih =>
    have hscale' : n ≠ 0 → (if n = 0 then scale else scale * 40).toNat = 40 ^ (k + 1) := by
      intro hn
      rw [if_neg hn]
      exact toNat_mul_scale (by omega) (hscale (Nat.succ_ne_zero n)) (by omega)
    have hpow : 40 ^ (k + 1) = 40 ^ k * 40 := Nat.pow_succ 40 k
    cases rest with
    | nil =>
      have hencoded' : encoded.toNat < 40 ^ (k + 1) := by omega
      obtain ⟨x, hx, hval⟩ :
          ∃ x, encodeDigits name n [] (if n = 0 then scale else scale * 40) encoded = .ok x ∧
            x.toNat = encoded.toNat + 40 ^ (k + 1) * nameNumber [] :=
        ih (by omega) hscale' hencoded' (Nat.zero_le n) hchars
      refine ⟨x, ?_, hval⟩
      rw [encodeDigits]
      exact hx
    | cons c rest =>
      have hc := hchars c List.mem_cons_self
      have hdigit := digitOf_lt hc
      have hpos := digitOf_pos hc
      -- the new sum has one digit more, which still fits
      have hsum : (encoded + UInt64.ofNat (digitOf c) * scale).toNat =
          encoded.toNat + digitOf c * 40 ^ k := by
        have hbig : 40 ^ (k + 1) ≤ 40 ^ 12 := Nat.pow_le_pow_right (by decide) (by omega)
        have hmul : digitOf c * 40 ^ k ≤ 39 * 40 ^ k := Nat.mul_le_mul_right _ (by omega)
        have hfit : (40 : Nat) ^ 12 < 2 ^ 64 := by decide
        have hword : digitOf c % 2 ^ 64 = digitOf c := Nat.mod_eq_of_lt (by omega)
        rw [UInt64.toNat_add, UInt64.toNat_mul, UInt64.toNat_ofNat', hscale (Nat.succ_ne_zero n),
          hword, Nat.mod_eq_of_lt (show digitOf c * 40 ^ k < 2 ^ 64 by omega)]
        exact Nat.mod_eq_of_lt (by omega)
      have hlt : (encoded + UInt64.ofNat (digitOf c) * scale).toNat < 40 ^ (k + 1) := by
        have hmul : digitOf c * 40 ^ k ≤ 39 * 40 ^ k := Nat.mul_le_mul_right _ (by omega)
        rw [hsum]
        omega
      obtain ⟨x, hx, hval⟩ := ih (by omega) hscale' hlt (Nat.le_of_succ_le_succ hlength)
        fun c hc => hchars c (List.mem_cons_of_mem _ hc)
      refine ⟨x, ?_, ?_⟩
      · rw [encodeDigits, idxOf?_of_mem hc]
        dsimp only
        rw [Nat.sub_add_cancel hpos]
        exact hx
      · rw [hval, hsum, nameNumber_cons, hpow]
        ring

theorem encodeDigits_error {name rest : Bytes} {n : Nat} {scale encoded : UInt64}
    (hlength : rest.length ≤ n) {c : UInt8} (hmem : c ∈ rest) (hc : c ∉ nameChars) :
    ∃ e, encodeDigits name n rest scale encoded = .error e := by
  induction n generalizing rest scale encoded with
  | zero =>
    rw [List.eq_nil_of_length_eq_zero (Nat.le_zero.mp hlength)] at hmem
    cases hmem
  | succ n ih =>
    cases rest with
    | nil => cases hmem
    | cons d rest =>
      rw [encodeDigits]
      split
      · exact ⟨_, rfl⟩
      · exact ⟨_, rfl⟩
      · next pos hpos =>
        rcases List.mem_cons.mp hmem with rfl | hmem
        · rcases idxOf?_of_notMem hc with hnone | hzero
          · rw [hnone] at hpos
            cases hpos
          · rw [hzero] at hpos
            cases hpos
        · exact ih (Nat.le_of_succ_le_succ hlength) hmem

theorem encodeName_of_valid {name : Bytes} (h : ValidName name) :
    ∃ x, encodeName name = .ok x ∧ x.toNat = nameNumber name := by
  obtain ⟨hpos, hle, hchars⟩ := h
  obtain ⟨x, hx, hval⟩ : ∃ x, encodeDigits name maxNameLen name 1 0 = .ok x ∧
      x.toNat = (0 : UInt64).toNat + 40 ^ 0 * nameNumber name :=
    encodeDigits_eq rfl (fun _ => rfl) (by decide) hle hchars
  refine ⟨x, ?_, ?_⟩
  · have hne : name ≠ [] := fun hnil => by
      rw [hnil] at hpos
      cases hpos
    rw [encodeName, if_neg hne, if_neg (Nat.not_lt.mpr hle)]
    exact hx
  · rw [hval, Nat.pow_zero, Nat.one_mul]
    exact Nat.zero_add _

theorem valid_of_encodeName {name : Bytes} {x : UInt64} (h : encodeName name = .ok x) :
    ValidName name := by
  rw [encodeName] at h
  split at h
  · cases h
  next hne =>
  split at h
  · cases h
  next hle =>
  refine ⟨List.length_pos_iff.mpr hne, Nat.not_lt.mp hle, fun c hc => ?_⟩
  by_contra hbad
  obtain ⟨e, he⟩ : ∃ e, encodeDigits name maxNameLen name 1 0 = .error e :=
    encodeDigits_error (Nat.not_lt.mp hle) hc hbad
  rw [he] at h
  cases h

/-! ### The loop of the decoder -/

theorem decodeDigits_eq {name : Bytes} {n : Nat} {x : UInt64}
    (hchars : ∀ c ∈ name, c ∈ nameChars) (hlength : name.length < n)
    (hx : x.toNat = nameNumber name) : decodeDigits n x = name := by
  induction name generalizing n x with
  | nil =>
    obtain ⟨n, rfl⟩ := Nat.exists_eq_add_one_of_ne_zero (Nat.ne_of_gt hlength)
    have hzero : x = 0 := UInt64.toNat.inj hx
    rw [decodeDigits, if_pos hzero]
  | cons c rest ih =>
    obtain ⟨n, rfl⟩ := Nat.exists_eq_add_one_of_ne_zero (Nat.ne_of_gt (Nat.zero_lt_of_lt hlength))
    have hc := hchars c List.mem_cons_self
    have hdigit := digitOf_lt hc
    have hpos := digitOf_pos hc
    rw [nameNumber_cons] at hx
    have hmod : (x % 40).toNat = digitOf c := by
      rw [UInt64.toNat_mod, hx]
      change (digitOf c + 40 * nameNumber rest) % 40 = _
      omega
    have hdiv : (x / 40).toNat = nameNumber rest := by
      rw [UInt64.toNat_div, hx]
      change (digitOf c + 40 * nameNumber rest) / 40 = _
      omega
    have hne : x ≠ 0 := by
      rintro rfl
      change 0 = _ at hx
      omega
    have hne' : x % 40 ≠ 0 := by
      intro hzero
      rw [hzero] at hmod
      change 0 = _ at hmod
      omega
    rw [decodeDigits, if_neg hne, if_neg hne', hmod, getD_digitOf hc,
      ih (fun c hc => hchars c (List.mem_cons_of_mem _ hc)) (Nat.lt_of_succ_lt_succ hlength) hdiv]

theorem decodeName_encodeName {name : Bytes} {x : UInt64} (h : encodeName name = .ok x) :
    decodeName x = name := by
  have hvalid := valid_of_encodeName h
  obtain ⟨x', hx', hval⟩ := encodeName_of_valid hvalid
  rw [h] at hx'
  cases hx'
  exact decodeDigits_eq hvalid.2.2 (Nat.lt_succ_of_le hvalid.2.1) hval

theorem encodeName_decodeName_iff (x : UInt64) :
    encodeName (decodeName x) = .ok x ↔ ∃ name, encodeName name = .ok x := by
  refine ⟨fun h => ⟨_, h⟩, ?_⟩
  rintro ⟨name, h⟩
  rw [decodeName_encodeName h]
  exact h

theorem validateEntry_iff {c : Container} {e : FileEntry}
    (hused : ¬ (e.size = 0 ∧ e.mapBlock = 0 ∧ e.name = 0)) (hblock : e.mapBlock < c.nextFreeBlock) :
    c.validateEntry e = .ok true ↔ ∃ name, encodeName name = .ok e.name := by
  have hempty : ∀ y, encodeName [] ≠ .ok y := nofun
  have hback : (encodeName (decodeName e.name)).toOption = some e.name ↔
      encodeName (decodeName e.name) = .ok e.name := by
    cases hencode : encodeName (decodeName e.name) with
    | error err => exact ⟨nofun, nofun⟩
    | ok y => simp [Except.toOption]
  rw [← encodeName_decodeName_iff, Container.validateEntry, if_neg hused]
  dsimp only
  split
  · next hnil =>
    rw [hnil]
    exact iff_of_false nofun (hempty e.name)
  split
  · next hne =>
    exact iff_of_false nofun fun h => hne (hback.mpr h)
  · next heq =>
    rw [not_not] at heq
    rw [if_neg (UInt64.not_le.mpr hblock)]
    exact iff_of_true rfl (hback.mp heq)

/-- **Base40 names are a bijection onto their image.** The encoder accepts exactly the names of one to
twelve characters of the alphabet without padding; what it returns is the number of the name itself,
with no wrap; it is injective and the decoder inverts it; a `u64` comes back from decoding and
encoding if and only if it is in the image; and the check of an entry that is in use accepts, of the
names, exactly those. -/
theorem encodeName_bijective :
    (∀ name, (∃ x, encodeName name = .ok x) ↔
      1 ≤ name.length ∧ name.length ≤ 12 ∧ ∀ c ∈ name, c ∈ base40Alphabet.tail) ∧
    (∀ name x, encodeName name = .ok x →
      x.toNat = nameNumber name ∧ nameNumber name < 2 ^ 64) ∧
    (∀ name name' x, encodeName name = .ok x → encodeName name' = .ok x → name = name') ∧
    (∀ name x, encodeName name = .ok x → decodeName x = name) ∧
    (∀ x, encodeName (decodeName x) = .ok x ↔ ∃ name, encodeName name = .ok x) ∧
    (∀ (c : Container) (e : FileEntry), ¬ (e.size = 0 ∧ e.mapBlock = 0 ∧ e.name = 0) →
      e.mapBlock < c.nextFreeBlock →
        (c.validateEntry e = .ok true ↔ ∃ name, encodeName name = .ok e.name)) := by
  refine ⟨fun name => ⟨?_, ?_⟩, fun name x h => ?_, fun name name' x h h' => ?_,
    fun name x h => decodeName_encodeName h, encodeName_decodeName_iff,
    fun c e hused hblock => validateEntry_iff hused hblock⟩
  · rintro ⟨x, h⟩
    exact valid_of_encodeName h
  · intro h
    obtain ⟨x, hx, -⟩ := encodeName_of_valid h
    exact ⟨x, hx⟩
  · obtain ⟨x', hx', hval⟩ := encodeName_of_valid (valid_of_encodeName h)
    rw [h] at hx'
    cases hx'
    exact ⟨hval, hval ▸ x.toNat_lt⟩
  · rw [← decodeName_encodeName h, decodeName_encodeName h']

/-- A name, its number, and a number that is none: its second digit is padding. -/
theorem encodeName_bijective_ab :
    encodeName [97, 98] = .ok 491 ∧ decodeName 491 = [97, 98] ∧
      encodeName (decodeName (11 + 40 * 40)) ≠ .ok (11 + 40 * 40) := by
  have h : encodeName [97, 98] = .ok 491 := by decide +kernel
  refine ⟨h, encodeName_bijective.2.2.2.1 _ _ h, fun hback => ?_⟩
  obtain ⟨name, hname⟩ := (encodeName_bijective.2.2.2.2.1 _).mp hback
  revert hback
  decide +kernel

end Ctfs
