import Mathlib

/-!
# JSON texts

The syntax of JSON over bytes. A `Value` keeps the lexemes of its numbers and
strings as they were written (the body of a string is what stands between its
quotes, escapes included), so a value determines its text up to the blanks between
tokens. Reading a body as characters is a separate matter (`Json.unquote`).

* `Renders p b` — the phrase `p` (a value, a non-empty sequence of array elements,
  or a non-empty sequence of object members) can be written as the bytes `b`, with
  any blanks between tokens.
* `RendersDoc v b` — the bytes `b` are a JSON document for `v`: a rendering of `v`
  with blanks around it.
-/

namespace Json

abbrev Bytes := List UInt8

/-! ### Tokens -/

abbrev lbrace : UInt8 := 0x7b
abbrev rbrace : UInt8 := 0x7d
abbrev lbracket : UInt8 := 0x5b
abbrev rbracket : UInt8 := 0x5d
abbrev comma : UInt8 := 0x2c
abbrev colon : UInt8 := 0x3a
abbrev quote : UInt8 := 0x22
abbrev backslash : UInt8 := 0x5c

/-- The bytes of `null`. -/
abbrev nullLexeme : Bytes := [0x6e, 0x75, 0x6c, 0x6c]
/-- The bytes of `true`. -/
abbrev trueLexeme : Bytes := [0x74, 0x72, 0x75, 0x65]
/-- The bytes of `false`. -/
abbrev falseLexeme : Bytes := [0x66, 0x61, 0x6c, 0x73, 0x65]

/-- JSON white space: blank, tab, newline, carriage return. -/
def isBlank (c : UInt8) : Bool := c = 0x20 ∨ c = 0x09 ∨ c = 0x0a ∨ c = 0x0d

/-- A run of white space. -/
def Blank (w : Bytes) : Prop := ∀ c ∈ w, isBlank c = true

def isDigit (c : UInt8) : Bool := 0x30 ≤ c ∧ c ≤ 0x39

def isHex (c : UInt8) : Bool :=
  isDigit c ∨ (0x61 ≤ c ∧ c ≤ 0x66) ∨ (0x41 ≤ c ∧ c ≤ 0x46)

/-- The characters that may follow a backslash, other than `u`. -/
def isSimpleEscape (c : UInt8) : Bool :=
  c ∈ [quote, backslash, 0x2f, 0x62, 0x66, 0x6e, 0x72, 0x74]

/-- The body of a string literal: no bare quote, no control character, and every
backslash starts an escape. -/
inductive Body : Bytes → Prop
  | nil : Body []
  | plain {c : UInt8} {b : Bytes} (hc : 0x20 ≤ c) (hq : c ≠ quote) (hb : c ≠ backslash)
      (h : Body b) : Body (c :: b)
  | escape {c : UInt8} {b : Bytes} (hc : isSimpleEscape c = true) (h : Body b) :
      Body (backslash :: c :: b)
  | unicode {d₁ d₂ d₃ d₄ : UInt8} {b : Bytes} (h₁ : isHex d₁ = true) (h₂ : isHex d₂ = true)
      (h₃ : isHex d₃ = true) (h₄ : isHex d₄ = true) (h : Body b) :
      Body (backslash :: 0x75 :: d₁ :: d₂ :: d₃ :: d₄ :: b)

/-- The bytes a number literal is made of. None of them can follow a complete
literal, so a literal is a maximal run of them. -/
def isNumberByte (c : UInt8) : Bool :=
  isDigit c ∨ c = 0x2d ∨ c = 0x2b ∨ c = 0x2e ∨ c = 0x65 ∨ c = 0x45

/-- An optional exponent that ends the literal. -/
def isExponent : Bytes → Bool
  | [] => true
  | [_] => false
  | e :: s :: r =>
    (e = 0x65 ∨ e = 0x45) ∧
      if s = 0x2b ∨ s = 0x2d then r ≠ [] ∧ r.all isDigit = true else (s :: r).all isDigit = true

/-- An optional fraction, then an optional exponent. -/
def isFraction : Bytes → Bool
  | 0x2e :: c :: r => isDigit c ∧ isExponent (r.dropWhile isDigit)
  | r => isExponent r

/-- An integer part without leading zeros, then what may follow it. -/
def isUnsigned : Bytes → Bool
  | [] => false
  | c :: r =>
    if c = 0x30 then isFraction r else isDigit c ∧ isFraction (r.dropWhile isDigit)

/-- A number literal. -/
def isNumber : Bytes → Bool
  | 0x2d :: r => isUnsigned r
  | r => isUnsigned r

/-! ### Values and their renderings -/

/-- A JSON value with the lexemes it was written with. -/
inductive Value where
  | null
  | bool (b : Bool)
  | number (lexeme : Bytes)
  | string (body : Bytes)
  | array (elems : List Value)
  | object (members : List (Bytes × Value))

/-- What a stretch of text can stand for. -/
inductive Phrase where
  | value (v : Value)
  | elems (vs : List Value)
  | members (ms : List (Bytes × Value))

/-- `Renders p b`: the bytes `b` spell the phrase `p`. A value's rendering has no
blanks around it, a sequence's has blanks wherever tokens meet. -/
inductive Renders : Phrase → Bytes → Prop
  | null : Renders (.value .null) nullLexeme
  | trueLit : Renders (.value (.bool true)) trueLexeme
  | falseLit : Renders (.value (.bool false)) falseLexeme
  | number {l : Bytes} (hl : isNumber l = true) : Renders (.value (.number l)) l
  | string {s : Bytes} (hs : Body s) : Renders (.value (.string s)) (quote :: s ++ [quote])
  | emptyArray {w : Bytes} (hw : Blank w) :
      Renders (.value (.array [])) (lbracket :: w ++ [rbracket])
  | array {vs : List Value} {b : Bytes} (h : Renders (.elems vs) b) :
      Renders (.value (.array vs)) (lbracket :: b ++ [rbracket])
  | emptyObject {w : Bytes} (hw : Blank w) :
      Renders (.value (.object [])) (lbrace :: w ++ [rbrace])
  | object {ms : List (Bytes × Value)} {b : Bytes} (h : Renders (.members ms) b) :
      Renders (.value (.object ms)) (lbrace :: b ++ [rbrace])
  | lastElem {v : Value} {w₁ b w₂ : Bytes} (hw₁ : Blank w₁) (h : Renders (.value v) b)
      (hw₂ : Blank w₂) : Renders (.elems [v]) (w₁ ++ b ++ w₂)
  | elem {v : Value} {vs : List Value} {w₁ b w₂ bs : Bytes} (hw₁ : Blank w₁)
      (h : Renders (.value v) b) (hw₂ : Blank w₂) (hs : Renders (.elems vs) bs) :
      Renders (.elems (v :: vs)) (w₁ ++ b ++ w₂ ++ comma :: bs)
  | lastMember {k : Bytes} {v : Value} {w₁ w₂ w₃ b w₄ : Bytes} (hw₁ : Blank w₁) (hk : Body k)
      (hw₂ : Blank w₂) (hw₃ : Blank w₃) (h : Renders (.value v) b) (hw₄ : Blank w₄) :
      Renders (.members [(k, v)])
        (w₁ ++ quote :: k ++ quote :: w₂ ++ colon :: w₃ ++ b ++ w₄)
  | member {k : Bytes} {v : Value} {ms : List (Bytes × Value)} {w₁ w₂ w₃ b w₄ bs : Bytes}
      (hw₁ : Blank w₁) (hk : Body k) (hw₂ : Blank w₂) (hw₃ : Blank w₃)
      (h : Renders (.value v) b) (hw₄ : Blank w₄) (hs : Renders (.members ms) bs) :
      Renders (.members ((k, v) :: ms))
        (w₁ ++ quote :: k ++ quote :: w₂ ++ colon :: w₃ ++ b ++ w₄ ++ comma :: bs)

/-- `b` is a document for `v`. -/
def RendersDoc (v : Value) (b : Bytes) : Prop :=
  ∃ w₁ t w₂, Blank w₁ ∧ Renders (.value v) t ∧ Blank w₂ ∧ b = w₁ ++ t ++ w₂

/-! ### Blanks -/

theorem Blank.nil : Blank [] := by simp [Blank]

theorem Blank.append {w w' : Bytes} (h : Blank w) (h' : Blank w') : Blank (w ++ w') := by
  intro c hc
  rcases List.mem_append.mp hc with hc | hc
  · exact h c hc
  · exact h' c hc

/-- Drop the blanks in front of a text. -/
def skipBlank (b : Bytes) : Bytes := b.dropWhile isBlank

theorem exists_skipBlank (b : Bytes) : ∃ w, Blank w ∧ b = w ++ skipBlank b :=
  ⟨b.takeWhile isBlank, fun _ hc => List.mem_takeWhile_imp hc,
    (List.takeWhile_append_dropWhile).symm⟩

theorem skipBlank_append {w : Bytes} (hw : Blank w) (b : Bytes) :
    skipBlank (w ++ b) = skipBlank b := by
  rw [skipBlank, List.dropWhile_append_of_pos hw]
  rfl

theorem skipBlank_cons {c : UInt8} (hc : isBlank c = false) (b : Bytes) :
    skipBlank (c :: b) = c :: b := by
  rw [skipBlank, List.dropWhile_cons_of_neg (by simp [hc])]

theorem skipBlank_append_cons {w : Bytes} (hw : Blank w) {c : UInt8} (hc : isBlank c = false)
    (b : Bytes) : skipBlank (w ++ c :: b) = c :: b := by
  rw [skipBlank_append hw, skipBlank_cons hc]

theorem skipBlank_eq_nil {w : Bytes} (hw : Blank w) : skipBlank w = [] := by
  rw [skipBlank, List.dropWhile_eq_nil_iff]
  exact hw

theorem Renders.elems_blank {vs : List Value} {w t : Bytes} (hw : Blank w)
    (h : Renders (.elems vs) t) : Renders (.elems vs) (w ++ t) := by
  cases h with
  | lastElem hw₁ hv hw₂ => simpa using Renders.lastElem (hw.append hw₁) hv hw₂
  | elem hw₁ hv hw₂ hs => simpa using Renders.elem (hw.append hw₁) hv hw₂ hs

theorem Renders.members_blank {ms : List (Bytes × Value)} {w t : Bytes} (hw : Blank w)
    (h : Renders (.members ms) t) : Renders (.members ms) (w ++ t) := by
  cases h with
  | lastMember hw₁ hk hw₂ hw₃ hv hw₄ =>
    simpa using Renders.lastMember (hw.append hw₁) hk hw₂ hw₃ hv hw₄
  | member hw₁ hk hw₂ hw₃ hv hw₄ hs =>
    simpa using Renders.member (hw.append hw₁) hk hw₂ hw₃ hv hw₄ hs

/-! ### Numbers -/

variable {l : Bytes}

private theorem all_number_of_all_digit (h : l.all isDigit = true) : l.all isNumberByte = true := by
  rw [List.all_eq_true] at h ⊢
  intro c hc
  simp [isNumberByte, h c hc]

private theorem all_number_of_dropWhile (h : (l.dropWhile isDigit).all isNumberByte = true) :
    l.all isNumberByte = true := by
  rw [← List.takeWhile_append_dropWhile (p := isDigit) (l := l), List.all_append, h, Bool.and_true]
  exact all_number_of_all_digit (List.all_eq_true.mpr fun _ hc => List.mem_takeWhile_imp hc)

private theorem isExponent_all (h : isExponent l = true) : l.all isNumberByte = true := by
  match l with
  | [] => rfl
  | [_] => simp [isExponent] at h
  | e :: s :: r =>
    simp only [isExponent, Bool.decide_or, Bool.decide_and, Bool.and_eq_true] at h
    obtain ⟨he, hr⟩ := h
    have he' : isNumberByte e = true := by
      simp only [Bool.or_eq_true, decide_eq_true_eq] at he
      rcases he with rfl | rfl <;> decide
    have hr' : (s :: r).all isNumberByte = true := by
      by_cases hs : s = 0x2b ∨ s = 0x2d
      · have hall : r.all isDigit = true := by simpa [hs] using (by simpa [hs] using hr : _ ∧ _).2
        have hs' : isNumberByte s = true := by rcases hs with rfl | rfl <;> decide
        simp [hs', all_number_of_all_digit hall]
      · exact all_number_of_all_digit (by simpa [hs] using hr)
    rw [List.all_cons, he', hr']
    rfl

private theorem isFraction_all (h : isFraction l = true) : l.all isNumberByte = true := by
  unfold isFraction at h
  split at h
  · next c r =>
    simp only [Bool.decide_and, Bool.decide_eq_true, Bool.and_eq_true] at h
    have hr := all_number_of_dropWhile (isExponent_all h.2)
    simp [isNumberByte, h.1, hr]
  · exact isExponent_all h

private theorem isUnsigned_all (h : isUnsigned l = true) : l.all isNumberByte = true := by
  match l with
  | [] => rfl
  | c :: r =>
    by_cases hc : c = 0x30
    · subst hc
      have hr : isFraction r = true := by simpa [isUnsigned] using h
      rw [List.all_cons, isFraction_all hr]
      decide
    · have hr : isDigit c = true ∧ isFraction (r.dropWhile isDigit) = true := by
        simpa [isUnsigned, hc] using h
      simp [isNumberByte, hr.1, all_number_of_dropWhile (isFraction_all hr.2)]

theorem isNumber_all (h : isNumber l = true) : l.all isNumberByte = true := by
  unfold isNumber at h
  split at h
  · next r =>
    rw [List.all_cons, isUnsigned_all h]
    decide
  · exact isUnsigned_all h

private theorem isUnsigned_head (h : isUnsigned l = true) :
    ∃ c r, l = c :: r ∧ isDigit c = true := by
  match l with
  | [] => simp [isUnsigned] at h
  | c :: r =>
    refine ⟨c, r, rfl, ?_⟩
    by_cases hc : c = 0x30
    · subst hc; decide
    · exact (by simpa [isUnsigned, hc] using h : _ ∧ _).1

theorem isNumber_head (h : isNumber l = true) :
    ∃ c r, l = c :: r ∧ (c = 0x2d ∨ isDigit c = true) := by
  unfold isNumber at h
  split at h
  · next r => exact ⟨0x2d, r, rfl, Or.inl rfl⟩
  · obtain ⟨c, r, rfl, hc⟩ := isUnsigned_head h
    exact ⟨c, r, rfl, Or.inr hc⟩

/-! ### The first byte of a value -/

/-- The bytes a value can start with. -/
def startsValue (c : UInt8) : Bool :=
  c = lbrace ∨ c = lbracket ∨ c = quote ∨ c = 0x2d ∨ isDigit c ∨ c = 0x6e ∨ c = 0x74 ∨ c = 0x66

theorem isDigit_not_blank {c : UInt8} (h : isDigit c = true) : isBlank c = false := by
  simp only [isDigit, decide_eq_true_eq, UInt8.le_iff_toNat_le] at h
  simp only [isBlank, decide_eq_false_iff_not, ← UInt8.toNat_inj]
  have h₁ : (0x30 : UInt8).toNat ≤ c.toNat := h.1
  simp only [UInt8.reduceToNat] at h₁ ⊢
  omega

theorem startsValue_not_blank {c : UInt8} (h : startsValue c = true) : isBlank c = false := by
  simp only [startsValue, decide_eq_true_eq] at h
  rcases h with rfl | rfl | rfl | rfl | h | rfl | rfl | rfl <;> try decide
  exact isDigit_not_blank h

theorem Renders.value_head {v : Value} {b : Bytes} (h : Renders (.value v) b) :
    ∃ c r, b = c :: r ∧ startsValue c = true := by
  cases h with
  | null => exact ⟨_, _, rfl, by decide⟩
  | trueLit => exact ⟨_, _, rfl, by decide⟩
  | falseLit => exact ⟨_, _, rfl, by decide⟩
  | number hl =>
    obtain ⟨c, r, rfl, hc⟩ := isNumber_head hl
    refine ⟨c, r, rfl, ?_⟩
    rcases hc with rfl | hc
    · decide
    · simp [startsValue, hc]
  | string hs => exact ⟨quote, _, rfl, by decide⟩
  | emptyArray hw => exact ⟨lbracket, _, rfl, by decide⟩
  | array h => exact ⟨lbracket, _, rfl, by decide⟩
  | emptyObject hw => exact ⟨lbrace, _, rfl, by decide⟩
  | object h => exact ⟨lbrace, _, rfl, by decide⟩

end Json
