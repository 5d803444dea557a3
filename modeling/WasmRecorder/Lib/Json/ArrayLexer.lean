import WasmRecorder.Lib.Fallible
import WasmRecorder.Lib.Json.Syntax

/-!
# Splitting a JSON array of objects, one byte at a time

A finite-state lexer that cuts the text of an array into the texts of its elements without
parsing them: it tracks the nesting of braces and whether it is inside a string. Elements
other than objects are refused. Commas are skipped like blanks.

* `Neutral.of_renders` — inside an element, the rendering of any phrase leaves the nesting as it
  was.
* `feed_document` — on a document that is an array of objects, the lexer hands the
  consumer the texts of the elements, in order.
-/

namespace Json

namespace ArrayLexer

open Fallible

/-- Where the lexer stands. -/
inductive Position where
  /-- Before the opening bracket. -/
  | before
  /-- Between two elements. -/
  | between
  /-- Inside an element: its text so far, the nesting of braces, and whether the next byte
  is in a string or escaped. -/
  | inside (elem : Bytes) (depth : Nat) (inString escaped : Bool)
  /-- After the closing bracket. -/
  | after
  deriving DecidableEq, Repr

/-- The number of bytes of an unfinished element. -/
def Position.pending : Position → Nat
  | .inside elem _ _ _ => elem.length
  | _ => 0

inductive LexError where
  | notArray (c : UInt8)
  | notObject (c : UInt8)
  | afterArray (c : UInt8)
  deriving DecidableEq, Repr

/-- What may stand between two elements. -/
def isSeparator (c : UInt8) : Bool := isBlank c ∨ c = comma

/-- One byte of an element. -/
def insideStep (elem : Bytes) (depth : Nat) (inString escaped : Bool) (c : UInt8) :
    Position × Option Bytes :=
  let elem' := elem ++ [c]
  if inString then
    if escaped then (.inside elem' depth true false, none)
    else if c = backslash then (.inside elem' depth true true, none)
    else if c = quote then (.inside elem' depth false false, none)
    else (.inside elem' depth true false, none)
  else if c = quote then (.inside elem' depth true escaped, none)
  else if c = lbrace then (.inside elem' (depth + 1) false escaped, none)
  else if c = rbrace then
    if depth - 1 = 0 then (.between, some elem') else (.inside elem' (depth - 1) false escaped, none)
  else (.inside elem' depth false escaped, none)

/-- One byte. -/
def step : Position → UInt8 → Except LexError (Position × Option Bytes)
  | .before, c =>
    if isBlank c then .ok (.before, none)
    else if c = lbracket then .ok (.between, none)
    else .error (.notArray c)
  | .between, c =>
    if isSeparator c then .ok (.between, none)
    else if c = rbracket then .ok (.after, none)
    else if c = lbrace then .ok (.inside [c] 1 false false, none)
    else .error (.notObject c)
  | .inside elem depth inString escaped, c => .ok (insideStep elem depth inString escaped c)
  | .after, c => if isSeparator c then .ok (.after, none) else .error (.afterArray c)

variable {ε S : Type} (bad : LexError → ε) (push : S → Bytes → Except ε S)

/-- One byte; a completed element goes to the consumer. -/
def consume (st : Position × S) (c : UInt8) : Except ε (Position × S) :=
  match step st.1 c with
  | .error e => .error (bad e)
  | .ok (p, none) => .ok (p, st.2)
  | .ok (p, some elem) => (push st.2 elem).map fun s => (p, s)

/-- Read until the array closes, and return what was not read. A lexer that is already past
the closing bracket reads everything. -/
def lex : Position × S → Bytes → Except ε ((Position × S) × Bytes)
  | st, [] => .ok (st, [])
  | st, c :: cs =>
    match consume bad push st c with
    | .error e => .error e
    | .ok st' => if st'.1 = .after ∧ st.1 ≠ .after then .ok (st', cs) else lex st' cs

/-! ### Strings and inert bytes -/

section Text

variable {bad : LexError → ε} {push : S → Bytes → Except ε S} {s : S} {elem : Bytes} {depth : Nat}

theorem consume_inside {inString escaped : Bool} {c : UInt8} {p : Position}
    (h : insideStep elem depth inString escaped c = (p, none)) :
    consume bad push (.inside elem depth inString escaped, s) c = .ok (p, s) := by
  rw [consume, step, h]

theorem consume_complete {inString escaped : Bool} {c : UInt8} {p : Position} {elem' : Bytes}
    (h : insideStep elem depth inString escaped c = (p, some elem')) :
    consume bad push (.inside elem depth inString escaped, s) c =
      (push s elem').map fun s' => (p, s') := by
  rw [consume, step, h]

/-- A byte that means nothing to the lexer outside strings. -/
def inert (c : UInt8) : Bool := c ≠ quote ∧ c ≠ lbrace ∧ c ≠ rbrace

theorem consume_inert {c : UInt8} (hc : inert c = true) :
    consume bad push (.inside elem depth false false, s) c =
      .ok (.inside (elem ++ [c]) depth false false, s) := by
  rw [inert, decide_eq_true_eq] at hc
  refine consume_inside ?_
  simp [insideStep, hc.1, hc.2.1, hc.2.2]

theorem feed_inert {b : Bytes} (hb : b.all inert = true) :
    feed (consume bad push) (.inside elem depth false false, s) b =
      .ok (.inside (elem ++ b) depth false false, s) := by
  induction b generalizing elem with
  | nil => rw [List.append_nil]; rfl
  | cons c b ih =>
    rw [List.all_cons, Bool.and_eq_true] at hb
    rw [feed_cons_of_ok (consume_inert hb.1), ih hb.2, List.append_assoc]
    rfl

theorem consume_quote :
    consume bad push (.inside elem depth false false, s) quote =
      .ok (.inside (elem ++ [quote]) depth true false, s) :=
  consume_inside rfl

theorem consume_endquote :
    consume bad push (.inside elem depth true false, s) quote =
      .ok (.inside (elem ++ [quote]) depth false false, s) :=
  consume_inside rfl

theorem consume_plain {c : UInt8} (hq : c ≠ quote) (hb : c ≠ backslash) :
    consume bad push (.inside elem depth true false, s) c =
      .ok (.inside (elem ++ [c]) depth true false, s) := by
  refine consume_inside ?_
  simp [insideStep, hq, hb]

theorem consume_backslash :
    consume bad push (.inside elem depth true false, s) backslash =
      .ok (.inside (elem ++ [backslash]) depth true true, s) :=
  consume_inside rfl

theorem consume_escaped {c : UInt8} :
    consume bad push (.inside elem depth true true, s) c =
      .ok (.inside (elem ++ [c]) depth true false, s) :=
  consume_inside rfl

theorem isHex_ne {c : UInt8} (h : isHex c = true) : c ≠ quote ∧ c ≠ backslash := by
  constructor
  · rintro rfl
    exact absurd h (by decide)
  · rintro rfl
    exact absurd h (by decide)

theorem feed_body {b : Bytes} (hb : Body b) :
    feed (consume bad push) (.inside elem depth true false, s) b =
      .ok (.inside (elem ++ b) depth true false, s) := by
  induction hb generalizing elem with
  | nil => rw [List.append_nil]; rfl
  | plain _ hq hb _ ih =>
    rw [feed_cons_of_ok (consume_plain hq hb), ih, List.append_assoc]
    rfl
  | escape _ _ ih =>
    rw [feed_cons_of_ok consume_backslash, feed_cons_of_ok consume_escaped, ih,
      List.append_assoc, List.append_assoc]
    rfl
  | unicode h₁ h₂ h₃ h₄ _ ih =>
    rw [feed_cons_of_ok consume_backslash, feed_cons_of_ok consume_escaped,
      feed_cons_of_ok (consume_plain (isHex_ne h₁).1 (isHex_ne h₁).2),
      feed_cons_of_ok (consume_plain (isHex_ne h₂).1 (isHex_ne h₂).2),
      feed_cons_of_ok (consume_plain (isHex_ne h₃).1 (isHex_ne h₃).2),
      feed_cons_of_ok (consume_plain (isHex_ne h₄).1 (isHex_ne h₄).2), ih]
    simp only [List.append_assoc]
    rfl

theorem feed_string {b : Bytes} (hb : Body b) :
    feed (consume bad push) (.inside elem depth false false, s) (quote :: b ++ [quote]) =
      .ok (.inside (elem ++ (quote :: b ++ [quote])) depth false false, s) := by
  rw [List.cons_append, feed_cons_of_ok consume_quote, feed_append_of_ok (feed_body hb),
    feed_cons_of_ok consume_endquote, feed_nil]
  simp only [List.append_assoc]
  rfl

/-! ### Phrases -/

variable (bad push) in
/-- A text that, inside an element and outside strings, leaves the lexer where it was. -/
def Neutral (b : Bytes) : Prop :=
  ∀ (s : S) (elem : Bytes) (depth : Nat), 0 < depth →
    feed (consume bad push) (.inside elem depth false false, s) b =
      .ok (.inside (elem ++ b) depth false false, s)

theorem Neutral.append {b b' : Bytes} (h : Neutral bad push b) (h' : Neutral bad push b') :
    Neutral bad push (b ++ b') := by
  intro s elem depth hd
  rw [feed_append_of_ok (h s elem depth hd), h' s _ depth hd, List.append_assoc]

theorem Neutral.of_inert {b : Bytes} (hb : b.all inert = true) : Neutral bad push b :=
  fun _ _ _ _ => feed_inert hb

theorem Neutral.cons {c : UInt8} {b : Bytes} (hc : inert c = true) (h : Neutral bad push b) :
    Neutral bad push (c :: b) := by
  have hone : Neutral bad push [c] := Neutral.of_inert (by simpa using hc)
  exact hone.append h

theorem Neutral.blank {w : Bytes} (hw : Blank w) : Neutral bad push w := by
  refine Neutral.of_inert (List.all_eq_true.mpr fun c hc => ?_)
  have hb := hw c hc
  simp only [isBlank, decide_eq_true_eq] at hb
  rcases hb with rfl | rfl | rfl | rfl <;> decide

theorem Neutral.string {b : Bytes} (hb : Body b) : Neutral bad push (quote :: b ++ [quote]) :=
  fun _ _ _ _ => feed_string hb

theorem consume_lbrace :
    consume bad push (.inside elem depth false false, s) lbrace =
      .ok (.inside (elem ++ [lbrace]) (depth + 1) false false, s) :=
  consume_inside rfl

theorem consume_rbrace (hd : 0 < depth) :
    consume bad push (.inside elem (depth + 1) false false, s) rbrace =
      .ok (.inside (elem ++ [rbrace]) depth false false, s) := by
  have hq : rbrace ≠ quote := by decide
  have hl : rbrace ≠ lbrace := by decide
  refine consume_inside ?_
  simp [insideStep, hq, hl, hd.ne']

theorem Neutral.braces {b : Bytes} (h : Neutral bad push b) :
    Neutral bad push (lbrace :: b ++ [rbrace]) := by
  intro s elem depth hd
  rw [List.cons_append, feed_cons_of_ok consume_lbrace,
    feed_append_of_ok (h s _ _ (Nat.succ_pos depth)), feed_cons_of_ok (consume_rbrace hd), feed_nil]
  simp only [List.append_assoc]
  rfl

theorem Neutral.member {k w₁ w₂ w₃ b w₄ : Bytes} (hw₁ : Blank w₁) (hk : Body k) (hw₂ : Blank w₂)
    (hw₃ : Blank w₃) (hb : Neutral bad push b) (hw₄ : Blank w₄) :
    Neutral bad push (w₁ ++ quote :: k ++ quote :: w₂ ++ colon :: w₃ ++ b ++ w₄) := by
  have hkey : Neutral bad push (w₁ ++ (quote :: k ++ [quote]) ++ w₂) :=
    ((Neutral.blank hw₁).append (Neutral.string hk)).append (Neutral.blank hw₂)
  have hvalue : Neutral bad push (colon :: w₃ ++ b ++ w₄) :=
    ((Neutral.cons (by decide) (Neutral.blank hw₃)).append hb).append (Neutral.blank hw₄)
  have hboth := hkey.append hvalue
  simp only [List.append_assoc, List.cons_append, List.nil_append] at hboth ⊢
  exact hboth

theorem inert_of_isNumberByte {c : UInt8} (h : isNumberByte c = true) : inert c = true := by
  rw [inert, decide_eq_true_eq]
  refine ⟨?_, ?_, ?_⟩ <;> (rintro rfl; exact absurd h (by decide))

/-- **Inside an element the lexer is not disturbed by any phrase**: it comes out at the same
nesting, outside strings. -/
theorem Neutral.of_renders {p : Phrase} {b : Bytes} (h : Renders p b) : Neutral bad push b := by
  induction h with
  | null => exact Neutral.of_inert (by decide)
  | trueLit => exact Neutral.of_inert (by decide)
  | falseLit => exact Neutral.of_inert (by decide)
  | number hl =>
    refine Neutral.of_inert (List.all_eq_true.mpr fun c hc => inert_of_isNumberByte ?_)
    exact List.all_eq_true.mp (isNumber_all hl) c hc
  | string hs => exact Neutral.string hs
  | emptyArray hw =>
    exact Neutral.cons (by decide) ((Neutral.blank hw).append (Neutral.of_inert (by decide)))
  | array _ ih => exact Neutral.cons (by decide) (ih.append (Neutral.of_inert (by decide)))
  | emptyObject hw => exact (Neutral.blank hw).braces
  | object _ ih => exact ih.braces
  | lastElem hw₁ _ hw₂ ih => exact ((Neutral.blank hw₁).append ih).append (Neutral.blank hw₂)
  | elem hw₁ _ hw₂ _ ih ihs =>
    exact (((Neutral.blank hw₁).append ih).append (Neutral.blank hw₂)).append
      (Neutral.cons (by decide) ihs)
  | lastMember hw₁ hk hw₂ hw₃ _ hw₄ ih => exact Neutral.member hw₁ hk hw₂ hw₃ ih hw₄
  | member hw₁ hk hw₂ hw₃ _ hw₄ _ ih ihs =>
    exact (Neutral.member hw₁ hk hw₂ hw₃ ih hw₄).append (Neutral.cons (by decide) ihs)

/-! ### Documents -/

theorem consume_separator {c : UInt8} (hc : isSeparator c = true) {p : Position}
    (hp : p = .between ∨ p = .after) : consume bad push (p, s) c = .ok (p, s) := by
  rcases hp with rfl | rfl <;> simp [consume, step, hc]

theorem feed_separators {w : Bytes} (hw : w.all isSeparator = true) {p : Position}
    (hp : p = .between ∨ p = .after) : feed (consume bad push) (p, s) w = .ok (p, s) := by
  induction w with
  | nil => rfl
  | cons c w ih =>
    rw [List.all_cons, Bool.and_eq_true] at hw
    rw [feed_cons_of_ok (consume_separator hw.1 hp), ih hw.2]

theorem isSeparator_of_blank {w : Bytes} (hw : Blank w) : w.all isSeparator = true := by
  refine List.all_eq_true.mpr fun c hc => ?_
  simp [isSeparator, hw c hc]

theorem feed_blank_before {w : Bytes} (hw : Blank w) :
    feed (consume bad push) (.before, s) w = .ok (.before, s) := by
  induction w with
  | nil => rfl
  | cons c w ih =>
    have hc : consume bad push (.before, s) c = .ok (.before, s) := by
      simp [consume, step, hw c List.mem_cons_self]
    rw [feed_cons_of_ok hc, ih fun c' hc' => hw c' (List.mem_cons_of_mem _ hc')]

theorem feed_braces {b : Bytes} (hb : Neutral bad push b) :
    feed (consume bad push) (.between, s) (lbrace :: b ++ [rbrace]) =
      (push s (lbrace :: b ++ [rbrace])).map fun s' => (.between, s') := by
  have hopen : consume bad push (.between, s) lbrace = .ok (.inside [lbrace] 1 false false, s) := by
    rfl
  have hclose : consume bad push (.inside (lbrace :: b) 1 false false, s) rbrace =
      (push s (lbrace :: b ++ [rbrace])).map fun s' => (.between, s') :=
    consume_complete rfl
  rw [List.cons_append, feed_cons_of_ok hopen, feed_append_of_ok (hb s [lbrace] 1 Nat.one_pos)]
  rw [feed_singleton]
  exact hclose

theorem feed_object {ms : List (Bytes × Value)} {b : Bytes}
    (h : Renders (.value (.object ms)) b) :
    feed (consume bad push) (.between, s) b = (push s b).map fun s' => (.between, s') := by
  cases h with
  | emptyObject hw => exact feed_braces (Neutral.blank hw)
  | object h => exact feed_braces (Neutral.of_renders h)

theorem feed_elem {ms : List (Bytes × Value)} {w₁ b w₂ : Bytes} (hw₁ : Blank w₁)
    (h : Renders (.value (.object ms)) b) (hw₂ : Blank w₂) :
    feed (consume bad push) (.between, s) (w₁ ++ b ++ w₂) =
      (push s b).map fun s' => (.between, s') := by
  have hfirst : feed (consume bad push) (.between, s) (w₁ ++ b) =
      (push s b).map fun s' => (.between, s') := by
    rw [feed_append_of_ok (feed_separators (isSeparator_of_blank hw₁) (Or.inl rfl)),
      feed_object h]
  cases hpush : push s b with
  | error e =>
    rw [hpush] at hfirst
    rw [feed_append_of_error hfirst]
    rfl
  | ok s' =>
    rw [hpush] at hfirst
    rw [feed_append_of_ok hfirst]
    exact feed_separators (isSeparator_of_blank hw₂) (Or.inl rfl)

def isObject : Value → Bool
  | .object _ => true
  | _ => false

theorem isObject_iff {v : Value} : isObject v = true ↔ ∃ ms, v = .object ms := by
  cases v <;> simp [isObject]

/-- An element in front of others. -/
theorem feed_elem_comma {w₁ t w₂ b : Bytes} {ms : List (Bytes × Value)} {ts : List Bytes}
    (hw₁ : Blank w₁) (hv : Renders (.value (.object ms)) t) (hw₂ : Blank w₂)
    (hrest : ∀ s, feed (consume bad push) (.between, s) b =
      (feed push s ts).map fun s' => (.between, s')) (s : S) :
    feed (consume bad push) (.between, s) (w₁ ++ t ++ w₂ ++ comma :: b) =
      (feed push s (t :: ts)).map fun s' => (.between, s') := by
  have hfirst : feed (consume bad push) (.between, s) (w₁ ++ t ++ w₂) =
      (push s t).map fun s' => (.between, s') := feed_elem hw₁ hv hw₂
  cases hpush : push s t with
  | error e =>
    rw [hpush] at hfirst
    rw [feed_append_of_error hfirst, feed_cons_of_error hpush]
    rfl
  | ok s' =>
    rw [hpush] at hfirst
    rw [feed_append_of_ok hfirst, feed_cons_of_ok hpush,
      feed_cons_of_ok (consume_separator (by decide) (Or.inl rfl)), hrest]

theorem feed_elems {vs : List Value} {b : Bytes} (h : Renders (.elems vs) b)
    (hobj : ∀ v ∈ vs, isObject v = true) :
    ∃ ts, List.Forall₂ (fun v t => Renders (.value v) t) vs ts ∧
      ∀ s, feed (consume bad push) (.between, s) b =
        (feed push s ts).map fun s' => (.between, s') := by
  induction vs generalizing b with
  | nil => cases h
  | cons v vs ih =>
    obtain ⟨ms, rfl⟩ := isObject_iff.mp (hobj v List.mem_cons_self)
    cases h with
    | @lastElem _ _ t _ hw₁ hv hw₂ =>
      refine ⟨[t], .cons hv .nil, fun s => ?_⟩
      rw [feed_elem hw₁ hv hw₂, feed_singleton]
    | @elem _ _ w₁ t w₂ _ hw₁ hv hw₂ hs =>
      obtain ⟨ts, hts, hrest⟩ := ih hs fun v hv => hobj v (List.mem_cons_of_mem _ hv)
      exact ⟨t :: ts, .cons hv hts, feed_elem_comma hw₁ hv hw₂ hrest⟩

variable (bad push) in
/-- **A document that is an array of objects.** The lexer hands the texts of the elements to
the consumer, in order, and comes out after the closing bracket. -/
theorem feed_document {vs : List Value} {b : Bytes} (h : RendersDoc (.array vs) b)
    (hobj : ∀ v ∈ vs, isObject v = true) :
    ∃ ts, List.Forall₂ (fun v t => Renders (.value v) t) vs ts ∧
      ∀ s, feed (consume bad push) (.before, s) b =
        (feed push s ts).map fun s' => (.after, s') := by
  obtain ⟨w₁, t, w₂, hw₁, ht, hw₂, rfl⟩ := h
  -- the brackets and the blanks around them, for any text of the elements
  have hframe : ∀ {e : Bytes} {ts : List Bytes} {s : S},
      feed (consume bad push) (.between, s) e = ((feed push s ts).map fun s' => (.between, s')) →
      feed (consume bad push) (.before, s) (w₁ ++ (lbracket :: e ++ [rbracket]) ++ w₂) =
        (feed push s ts).map fun s' => (.after, s') := by
    intro e ts s he
    have hopen : consume bad push (.before, s) lbracket = .ok (.between, s) := rfl
    rw [List.append_assoc, feed_append_of_ok (feed_blank_before hw₁), List.cons_append,
      List.cons_append, feed_cons_of_ok hopen, List.append_assoc]
    cases hrun : feed push s ts with
    | error err =>
      rw [hrun] at he
      rw [feed_append_of_error he]
      rfl
    | ok s' =>
      rw [hrun] at he
      have hclose : consume bad push (.between, s') rbracket = .ok (.after, s') := rfl
      rw [feed_append_of_ok he, List.singleton_append, feed_cons_of_ok hclose,
        feed_separators (isSeparator_of_blank hw₂) (Or.inr rfl)]
      rfl
  cases ht with
  | emptyArray hw =>
    exact ⟨[], .nil, fun s => hframe (feed_separators (isSeparator_of_blank hw) (Or.inl rfl))⟩
  | array he =>
    obtain ⟨ts, hts, hrun⟩ := feed_elems he hobj
    exact ⟨ts, hts, fun s => hframe (hrun s)⟩

/-- The first byte of `null`. -/
def nullByte : UInt8 := 0x6e

theorem feed_elems_null {os rest : List Value} {b : Bytes}
    (h : Renders (.elems (os ++ .null :: rest)) b) (hobj : ∀ v ∈ os, isObject v = true) :
    ∃ b₀ b' ts, b = b₀ ++ nullByte :: b' ∧
      List.Forall₂ (fun v t => Renders (.value v) t) os ts ∧
      ∀ s, feed (consume bad push) (.between, s) b₀ =
        (feed push s ts).map fun s' => (.between, s') := by
  induction os generalizing b with
  | nil =>
    obtain ⟨w₁, b', hw₁, rfl⟩ : ∃ w₁ b', Blank w₁ ∧ b = w₁ ++ nullByte :: b' := by
      cases h with
      | @lastElem _ w₁ _ w₂ hw₁ hv hw₂ =>
        cases hv
        exact ⟨w₁, _, hw₁, List.append_assoc _ _ _⟩
      | @elem _ _ w₁ _ w₂ bs hw₁ hv hw₂ hs =>
        cases hv
        exact ⟨w₁, _, hw₁, by simp only [List.append_assoc]; rfl⟩
    exact ⟨w₁, b', [], rfl, .nil, fun s =>
      feed_separators (isSeparator_of_blank hw₁) (Or.inl rfl)⟩
  | cons v os ih =>
    obtain ⟨ms, rfl⟩ := isObject_iff.mp (hobj v List.mem_cons_self)
    cases hrest : os ++ .null :: rest with
    | nil => exact absurd hrest (by simp)
    | cons v' vs =>
      rw [List.cons_append, hrest] at h
      cases h with
      | @elem _ _ w₁ t w₂ bs hw₁ hv hw₂ hs =>
        rw [← hrest] at hs
        obtain ⟨b₀, b', ts, rfl, hts, hrun⟩ := ih hs fun v hv => hobj v (List.mem_cons_of_mem _ hv)
        exact ⟨w₁ ++ t ++ w₂ ++ comma :: b₀, b', t :: ts, by simp [List.append_assoc],
          .cons hv hts, feed_elem_comma hw₁ hv hw₂ hrun⟩

variable (bad push) in
/-- A document that is an array of objects up to a `null`. The lexer hands the objects before
it to the consumer and refuses the `null`. -/
theorem feed_document_null {os rest : List Value} {b : Bytes}
    (h : RendersDoc (.array (os ++ .null :: rest)) b) (hobj : ∀ v ∈ os, isObject v = true) :
    ∃ b₀ b' ts, b = b₀ ++ nullByte :: b' ∧
      List.Forall₂ (fun v t => Renders (.value v) t) os ts ∧
      ∀ s, feed (consume bad push) (.before, s) b₀ =
        (feed push s ts).map fun s' => (.between, s') := by
  obtain ⟨w₁, t, w₂, hw₁, ht, hw₂, rfl⟩ := h
  generalize hvs : os ++ .null :: rest = vs at ht
  cases ht with
  | emptyArray => exact absurd hvs (by simp)
  | array he =>
    rw [← hvs] at he
    obtain ⟨b₀, b', ts, rfl, hts, hrun⟩ := feed_elems_null he hobj
    refine ⟨w₁ ++ lbracket :: b₀, b' ++ [rbracket] ++ w₂, ts, by simp [List.append_assoc], hts,
      fun s => ?_⟩
    have hopen : consume bad push (.before, s) lbracket = .ok (.between, s) := rfl
    rw [feed_append_of_ok (feed_blank_before hw₁), feed_cons_of_ok hopen, hrun]

/-! ### Stopping at the closing bracket -/

variable {st st' st₁ : Position × S} {b b₁ b₂ : Bytes} {c : UInt8}

theorem consume_after (hst : st.1 = .after) (h : consume bad push st c = .ok st') :
    st' = st ∧ isSeparator c = true := by
  obtain ⟨p, s⟩ := st
  cases hst
  by_cases hc : isSeparator c = true
  · rw [consume_separator hc (Or.inr rfl)] at h
    exact ⟨(Except.ok.inj h).symm, hc⟩
  · simp [consume, step, hc] at h

theorem feed_after (hst : st.1 = .after) (h : feed (consume bad push) st b = .ok st') :
    st' = st ∧ b.all isSeparator = true := by
  induction b generalizing st with
  | nil => cases h; exact ⟨rfl, rfl⟩
  | cons c b ih =>
    obtain ⟨st₁, hc, hrest⟩ := feed_cons_ok h
    obtain ⟨rfl, hsep⟩ := consume_after hst hc
    obtain ⟨rfl, hseps⟩ := ih hst hrest
    exact ⟨rfl, by rw [List.all_cons, hsep, hseps]; rfl⟩

theorem open_of_feed (h : feed (consume bad push) st b = .ok st') (hst' : st'.1 ≠ .after) :
    st.1 ≠ .after := by
  intro hst
  rw [(feed_after hst h).1] at hst'
  exact hst' hst

theorem feed_after_error {e : ε} (hst : st.1 = .after)
    (h : feed (consume bad push) st b = .error e) : ∃ c, e = bad (.afterArray c) := by
  obtain ⟨before, c, after, st₁, -, hrun, hc⟩ := feed_error_split h
  obtain ⟨rfl, -⟩ := feed_after hst hrun
  obtain ⟨p, s⟩ := st₁
  cases hst
  by_cases hsep : isSeparator c = true
  · rw [consume_separator hsep (Or.inr rfl)] at hc
    cases hc
  · rw [consume, step, if_neg hsep] at hc
    cases hc
    exact ⟨c, rfl⟩

theorem lex_cons_open (hc : consume bad push st c = .ok st₁) (hst₁ : st₁.1 ≠ .after) :
    lex bad push st (c :: b) = lex bad push st₁ b := by
  rw [lex, hc]
  dsimp only
  rw [if_neg fun h => hst₁ h.1]

theorem lex_after (hst : st.1 = .after) :
    lex bad push st b = (feed (consume bad push) st b).map fun st' => (st', []) := by
  induction b generalizing st with
  | nil => rfl
  | cons c b ih =>
    rw [lex]
    cases hc : consume bad push st c with
    | error e => rw [feed_cons_of_error hc]; rfl
    | ok st₁ =>
      obtain ⟨rfl, -⟩ := consume_after hst hc
      dsimp only
      rw [if_neg fun h => h.2 hst, feed_cons_of_ok hc, ih hst]

theorem lex_append_open (h : feed (consume bad push) st b₁ = .ok st₁) (hst₁ : st₁.1 ≠ .after) :
    lex bad push st (b₁ ++ b₂) = lex bad push st₁ b₂ := by
  induction b₁ generalizing st with
  | nil => cases h; rfl
  | cons c b₁ ih =>
    obtain ⟨st₂, hc, hrest⟩ := feed_cons_ok h
    rw [List.cons_append, lex_cons_open hc (open_of_feed hrest hst₁), ih hrest]

theorem lex_open (h : feed (consume bad push) st b = .ok st') (hst' : st'.1 ≠ .after) :
    lex bad push st b = .ok (st', []) := by
  have happ : lex bad push st (b ++ []) = lex bad push st' [] := lex_append_open h hst'
  rw [List.append_nil] at happ
  rw [happ, lex]

theorem lex_closes (h : feed (consume bad push) st b₁ = .ok st₁) (hst₁ : st₁.1 ≠ .after)
    (hc : consume bad push st₁ c = .ok st') (hst' : st'.1 = .after) :
    lex bad push st (b₁ ++ c :: b₂) = .ok (st', b₂) := by
  rw [lex_append_open h hst₁, lex, hc]
  dsimp only
  rw [if_pos ⟨hst', hst₁⟩]

theorem lex_skip {p : UInt8 → Bool} (hskip : ∀ w : Bytes, w.all p = true →
    feed (consume bad push) st w = .ok st) (b : Bytes) :
    lex bad push st b = lex bad push st (b.dropWhile p) := by
  have hw := hskip (b.takeWhile p) (List.all_eq_true.mpr fun _ hc => List.mem_takeWhile_imp hc)
  conv_lhs => rw [← List.takeWhile_append_dropWhile (p := p) (l := b)]
  by_cases hst : st.1 = .after
  · rw [lex_after hst, lex_after hst, feed_append_of_ok hw]
  · exact lex_append_open hw hst

theorem lex_error {e : ε} (h : feed (consume bad push) st b₁ = .ok st₁) (hst₁ : st₁.1 ≠ .after)
    (hc : consume bad push st₁ c = .error e) : lex bad push st (b₁ ++ c :: b₂) = .error e := by
  rw [lex_append_open h hst₁, lex, hc]

theorem lex_ok {rest : Bytes} (h : lex bad push st b = .ok (st', rest)) :
    ∃ b₁, b = b₁ ++ rest ∧ feed (consume bad push) st b₁ = .ok st' ∧
      (rest ≠ [] → st'.1 = .after) := by
  induction b generalizing st with
  | nil =>
    cases h
    exact ⟨[], rfl, rfl, fun h => absurd rfl h⟩
  | cons c b ih =>
    rw [lex] at h
    split at h
    · cases h
    · next st₁ hc =>
      split_ifs at h with hclose
      · cases h
        exact ⟨[c], rfl, by rw [feed_singleton, hc], fun _ => hclose.1⟩
      · obtain ⟨b₁, rfl, hfeed, hrest⟩ := ih h
        exact ⟨c :: b₁, rfl, (feed_cons_of_ok hc).trans hfeed, hrest⟩

/-! ### Reading in chunks -/

variable (bad push) in
/-- Read one more chunk. What was left unread after the closing bracket is read with it. -/
def readChunk (core : (Position × S) × Bytes) (chunk : Bytes) :
    Except ε ((Position × S) × Bytes) :=
  lex bad push core.1 (core.2 ++ chunk)

variable {chunks : List Bytes}

theorem readChunks_open (h : feed (consume bad push) st chunks.flatten = .ok st')
    (hst' : st'.1 ≠ .after) : feed (readChunk bad push) (st, []) chunks = .ok (st', []) := by
  induction chunks generalizing st with
  | nil => cases h; rfl
  | cons chunk chunks ih =>
    rw [List.flatten_cons] at h
    obtain ⟨st₁, hfirst, hrest⟩ := feed_append_ok h
    have hlex : readChunk bad push (st, []) chunk = .ok (st₁, []) :=
      lex_open hfirst (open_of_feed hrest hst')
    rw [feed_cons_of_ok hlex, ih hrest]

theorem readChunks_after {unread : Bytes} (hst : st.1 = .after) (hchunks : chunks ≠ []) :
    feed (readChunk bad push) (st, unread) chunks =
      (feed (consume bad push) st (unread ++ chunks.flatten)).map fun st' => (st', []) := by
  induction chunks generalizing unread with
  | nil => exact absurd rfl hchunks
  | cons chunk chunks ih =>
    have hlex : readChunk bad push (st, unread) chunk =
        (feed (consume bad push) st (unread ++ chunk)).map fun st' => (st', []) := lex_after hst
    rw [List.flatten_cons, ← List.append_assoc]
    cases hrun : feed (consume bad push) st (unread ++ chunk) with
    | error e =>
      rw [hrun] at hlex
      rw [feed_cons_of_error hlex, feed_append_of_error hrun]
      rfl
    | ok st₁ =>
      obtain ⟨rfl, -⟩ := feed_after hst hrun
      rw [hrun] at hlex
      rw [feed_cons_of_ok hlex, feed_append_of_ok hrun]
      cases chunks with
      | nil => rfl
      | cons chunk' chunks => exact ih (List.cons_ne_nil _ _)

/-- The chunks that end before the byte at position `n`. -/
def chunksBefore : Nat → List Bytes → List Bytes
  | _, [] => []
  | n, chunk :: chunks =>
    if chunk.length ≤ n then chunk :: chunksBefore (n - chunk.length) chunks else []

theorem exists_holding (h : chunks.flatten = b₁ ++ c :: b₂) :
    ∃ x y rest, chunks = chunksBefore b₁.length chunks ++ (x ++ c :: y) :: rest ∧
      b₁ = (chunksBefore b₁.length chunks).flatten ++ x ∧ b₂ = y ++ rest.flatten := by
  induction chunks generalizing b₁ with
  | nil => exact absurd h (by simp)
  | cons chunk chunks ih =>
    rw [List.flatten_cons] at h
    rw [chunksBefore]
    split_ifs with hle
    · -- the byte is in a later chunk
      obtain ⟨b₁', rfl, hrest⟩ : ∃ b₁', b₁ = chunk ++ b₁' ∧ chunks.flatten = b₁' ++ c :: b₂ := by
        rcases List.append_eq_append_iff.mp h with ⟨m, hm, hm'⟩ | ⟨m, hm, hm'⟩
        · exact ⟨m, hm, hm'⟩
        · have hnil : m = [] := by
            rw [hm, List.length_append] at hle
            exact List.length_eq_zero_iff.mp (by omega)
          subst hnil
          exact ⟨[], by simpa using hm.symm, by simpa using hm'.symm⟩
      obtain ⟨x, y, rest, hsplit, hb₁, hb₂⟩ := ih hrest
      rw [List.length_append, Nat.add_sub_cancel_left]
      refine ⟨x, y, rest, ?_, ?_, hb₂⟩
      · rw [List.cons_append, ← hsplit]
      · rw [List.flatten_cons, List.append_assoc, ← hb₁]
    · rcases List.append_eq_append_iff.mp h with ⟨m, hm, -⟩ | ⟨m, hm, hm'⟩
      · rw [hm, List.length_append] at hle
        omega
      · cases m with
        | nil =>
          rw [hm, List.append_nil] at hle
          exact absurd (le_refl _) hle
        | cons c' y =>
          rw [List.cons_append, List.cons.injEq] at hm'
          obtain ⟨rfl, rfl⟩ := hm'
          exact ⟨b₁, y, chunks, by rw [hm]; rfl, rfl, rfl⟩

theorem readChunks_error {e : ε} (hflat : chunks.flatten = b₁ ++ c :: b₂)
    (h : feed (consume bad push) st b₁ = .ok st₁) (hst₁ : st₁.1 ≠ .after)
    (hc : consume bad push st₁ c = .error e) :
    ∃ st₀ chunk rest, chunks = chunksBefore b₁.length chunks ++ chunk :: rest ∧
      feed (consume bad push) st (chunksBefore b₁.length chunks).flatten = .ok st₀ ∧
      feed (readChunk bad push) (st, []) (chunksBefore b₁.length chunks) = .ok (st₀, []) ∧
      readChunk bad push (st₀, []) chunk = .error e := by
  obtain ⟨x, y, rest, hsplit, hb₁, -⟩ := exists_holding hflat
  rw [hb₁] at h
  obtain ⟨st₀, hfirst, hx⟩ := feed_append_ok h
  exact ⟨st₀, _, rest, hsplit, hfirst, readChunks_open hfirst (open_of_feed hx hst₁),
    lex_error hx hst₁ hc⟩

/-- The closing bracket is found in the chunk that holds it, and the rest of that chunk is
left unread. -/
theorem readChunks_closes (hflat : chunks.flatten = b₁ ++ c :: b₂)
    (h : feed (consume bad push) st b₁ = .ok st₁) (hst₁ : st₁.1 ≠ .after)
    (hc : consume bad push st₁ c = .ok st') (hst' : st'.1 = .after) :
    ∃ chunk unread rest, chunks = chunksBefore b₁.length chunks ++ chunk :: rest ∧
      feed (readChunk bad push) (st, []) (chunksBefore b₁.length chunks ++ [chunk]) =
        .ok (st', unread) ∧ b₂ = unread ++ rest.flatten := by
  obtain ⟨x, y, rest, hsplit, hb₁, hb₂⟩ := exists_holding hflat
  rw [hb₁] at h
  obtain ⟨st₀, hfirst, hx⟩ := feed_append_ok h
  refine ⟨_, y, rest, hsplit, ?_, hb₂⟩
  rw [feed_append_of_ok (readChunks_open hfirst (open_of_feed hx hst₁)), feed_singleton]
  exact lex_closes hx hst₁ hc hst'

/-- Any text from before the closing bracket is read to its end with the array still open, or
closes the array at some byte, or has a first faulty byte. -/
theorem feed_cases (bad : LexError → ε) (push : S → Bytes → Except ε S) (hst : st.1 ≠ .after)
    (b : Bytes) :
    (∃ st', feed (consume bad push) st b = .ok st' ∧ st'.1 ≠ .after) ∨
    (∃ b₁ c b₂ st₁ st', b = b₁ ++ c :: b₂ ∧ feed (consume bad push) st b₁ = .ok st₁ ∧
      st₁.1 ≠ .after ∧ consume bad push st₁ c = .ok st' ∧ st'.1 = .after) ∨
    (∃ b₁ c b₂ st₁ e, b = b₁ ++ c :: b₂ ∧ feed (consume bad push) st b₁ = .ok st₁ ∧
      st₁.1 ≠ .after ∧ consume bad push st₁ c = .error e) := by
  induction b generalizing st with
  | nil => exact .inl ⟨st, rfl, hst⟩
  | cons c b ih =>
    cases hc : consume bad push st c with
    | error e => exact .inr (.inr ⟨[], c, b, st, e, rfl, rfl, hst, hc⟩)
    | ok st₁ =>
      by_cases hst₁ : st₁.1 = .after
      · exact .inr (.inl ⟨[], c, b, st, st₁, rfl, rfl, hst, hc, hst₁⟩)
      · rcases ih hst₁ with ⟨st', h, hst'⟩ | ⟨b₁, c', b₂, st₂, st', rfl, h, hst₂, hc', hst'⟩ |
          ⟨b₁, c', b₂, st₂, e, rfl, h, hst₂, hc'⟩
        · exact .inl ⟨st', (feed_cons_of_ok hc).trans h, hst'⟩
        · exact .inr (.inl ⟨c :: b₁, c', b₂, st₂, st', rfl, (feed_cons_of_ok hc).trans h, hst₂,
            hc', hst'⟩)
        · exact .inr (.inr ⟨c :: b₁, c', b₂, st₂, e, rfl, (feed_cons_of_ok hc).trans h, hst₂,
            hc'⟩)

theorem readChunks_of_feed (hst : st.1 ≠ .after)
    (h : feed (consume bad push) st chunks.flatten = .ok st') :
    ∃ unread, feed (readChunk bad push) (st, []) chunks = .ok (st', unread) := by
  rcases feed_cases bad push hst chunks.flatten with ⟨st₁, hrun, hopen⟩ |
    ⟨b₁, c, b₂, st₁, st₂, hflat, hrun, hopen, hc, hclosed⟩ |
    ⟨b₁, c, b₂, st₁, e, hflat, hrun, hopen, hc⟩
  · rw [h] at hrun
    cases hrun
    exact ⟨[], readChunks_open h hopen⟩
  · -- the array closes, and what follows only separates
    obtain ⟨chunk, unread, rest, hsplit, hread, hb₂⟩ :=
      readChunks_closes hflat hrun hopen hc hclosed
    rw [hflat, feed_append_of_ok hrun, feed_cons_of_ok hc] at h
    obtain ⟨rfl, -⟩ := feed_after hclosed h
    rw [hsplit, List.append_cons, feed_append_of_ok hread]
    cases rest with
    | nil => exact ⟨unread, rfl⟩
    | cons chunk' rest =>
      rw [readChunks_after hclosed (List.cons_ne_nil _ _), ← hb₂, h]
      exact ⟨[], rfl⟩
  · rw [hflat, feed_append_of_ok hrun, feed_cons_of_error hc] at h
    cases h

end Text

end ArrayLexer

end Json
