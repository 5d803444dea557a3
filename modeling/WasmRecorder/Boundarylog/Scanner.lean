import WasmRecorder.Lib.Json.ArrayLexer
import WasmRecorder.Lib.Slice

/-!
# The scanner of a growing JSON array

`JsonArrayScanner` splits a JSON array into its elements as the bytes arrive. It keeps the
bytes it has not finished with in a buffer, with an index of the next byte to examine, and
compacts the buffer between elements.

* `JsonArrayScanner.position`, `unread` — what a scanner stands for: a position of the byte
  lexer of `Json.ArrayLexer`, and the bytes it has not examined.
* `next_spec`, `drain_spec` — the scanner refines the lexer.
-/

namespace Boundarylog

open Json Json.ArrayLexer Slice

structure JsonArrayScanner where
  buf : Bytes := []
  /-- The next byte to examine. -/
  i : Nat := 0
  /-- The opening bracket has been seen. -/
  started : Bool := false
  /-- The closing bracket has been seen. -/
  done : Bool := false
  /-- Where the element being scanned begins. -/
  elemStart : Option Nat := none
  depth : Int := 0
  inString : Bool := false
  escaped : Bool := false
  deriving DecidableEq, Repr

namespace JsonArrayScanner

def feed (s : JsonArrayScanner) (b : Bytes) : JsonArrayScanner := { s with buf := s.buf ++ b }

/-- The number of buffered bytes that belong to an unfinished element. -/
def pending (s : JsonArrayScanner) : Nat :=
  match s.elemStart with
  | none => 0
  | some start => s.buf.length - start

/-- Drop the bytes already consumed. -/
def compact (s : JsonArrayScanner) : JsonArrayScanner :=
  if s.elemStart.isSome ∨ s.i = 0 then s else { s with buf := s.buf.drop s.i, i := 0 }

/-- Advance over bytes of a kind. -/
def skip (p : UInt8 → Bool) (s : JsonArrayScanner) : JsonArrayScanner :=
  { s with i := s.i + ((s.buf.drop s.i).takeWhile p).length }

/-- One byte of an object; `true` if it completes the element. -/
def objectByte (s : JsonArrayScanner) (c : UInt8) : JsonArrayScanner × Bool :=
  let s := { s with i := s.i + 1 }
  if s.inString then
    if s.escaped then ({ s with escaped := false }, false)
    else if c = backslash then ({ s with escaped := true }, false)
    else if c = quote then ({ s with inString := false }, false)
    else (s, false)
  else if c = quote then ({ s with inString := true }, false)
  else if c = lbrace then ({ s with depth := s.depth + 1 }, false)
  else if c = rbrace then ({ s with depth := s.depth - 1 }, s.depth - 1 = 0)
  else (s, false)

/-- Scan the bytes of an object as far as they have arrived. -/
def scanObject : Bytes → JsonArrayScanner → JsonArrayScanner × Bool
  | [], s => (s, false)
  | c :: cs, s =>
    match s.objectByte c with
    | (s', true) => (s', true)
    | (s', false) => scanObject cs s'

/-- Continue the element being scanned. -/
def nextInside (s : JsonArrayScanner) (start : Nat) : JsonArrayScanner × Option Bytes :=
  match scanObject (s.buf.drop s.i) s with
  | (s', true) => ({ s' with elemStart := none }, some (slice s'.buf start s'.i))
  | (s', false) => (s', none)

/-- Continue inside the array. -/
def nextElem (s : JsonArrayScanner) : Except LexError (JsonArrayScanner × Option Bytes) :=
  match s.elemStart with
  | some start => .ok (s.nextInside start)
  | none =>
    let s := (s.skip isSeparator).compact
    match s.buf[s.i]? with
    | none => .ok (s, none)
    | some c =>
      if s.done then .error (.afterArray c)
      else if c = rbracket then .ok ({ s with done := true, i := s.i + 1 }, none)
      else if c ≠ lbrace then .error (.notObject c)
      else .ok (nextInside
        { s with elemStart := some s.i, depth := 0, inString := false, escaped := false } s.i)

/-- The next complete element, or none if more bytes are needed or the array has closed. -/
def next (s : JsonArrayScanner) : Except LexError (JsonArrayScanner × Option Bytes) :=
  if s.started then s.nextElem
  else
    let s := s.skip isBlank
    match s.buf[s.i]? with
    | none => .ok (s, none)
    | some c =>
      if c ≠ lbracket then .error (.notArray c)
      else nextElem { s with started := true, i := s.i + 1 }

section Drain

variable {ε S : Type} (bad : LexError → ε) (push : S → Bytes → Except ε S)

/-- Hand the complete elements to a consumer, at most `fuel` of them. -/
def drainLoop : Nat → JsonArrayScanner × S → Except ε (JsonArrayScanner × S)
  | 0, st => .ok st
  | fuel + 1, (sc, s) =>
    match sc.next with
    | .error e => .error (bad e)
    | .ok (sc', none) => .ok (sc', s)
    | .ok (sc', some elem) =>
      match push s elem with
      | .error e => .error e
      | .ok s' => drainLoop fuel (sc', s')

/-- Hand every complete element to a consumer. An element has at least one byte, so the
length of the buffer bounds their number. -/
def drain (st : JsonArrayScanner × S) : Except ε (JsonArrayScanner × S) :=
  drainLoop bad push (st.1.buf.length + 1) st

end Drain

/-! ### What a scanner stands for -/

/-- The bytes not examined yet. -/
def unread (s : JsonArrayScanner) : Bytes := s.buf.drop s.i

def position (s : JsonArrayScanner) : Position :=
  if ¬ s.started then .before
  else if s.done then .after
  else match s.elemStart with
    | none => .between
    | some start => .inside (slice s.buf start s.i) s.depth.toNat s.inString s.escaped

structure Inv (s : JsonArrayScanner) : Prop where
  bound : s.i ≤ s.buf.length
  started : s.done = true → s.started = true
  inside : ∀ start, s.elemStart = some start →
    s.started = true ∧ s.done = false ∧ start < s.i ∧ 0 < s.depth

theorem inv_empty : Inv {} where
  bound := le_refl _
  started := by intro h; cases h
  inside := by intro start h; cases h

theorem unread_feed {s : JsonArrayScanner} (h : s.Inv) (b : Bytes) :
    (s.feed b).unread = s.unread ++ b := by
  rw [unread, feed, unread, List.drop_append_of_le_length h.bound]

theorem position_feed {s : JsonArrayScanner} (h : s.Inv) (b : Bytes) :
    (s.feed b).position = s.position := by
  have hslice : ∀ start, slice (s.buf ++ b) start s.i = slice s.buf start s.i := by
    intro start
    rw [slice, slice, List.take_append_of_le_length h.bound]
  simp only [position, feed, hslice]

theorem inv_feed {s : JsonArrayScanner} (h : s.Inv) (b : Bytes) : (s.feed b).Inv where
  bound := by
    rw [feed, List.length_append]
    exact h.bound.trans (Nat.le_add_right _ _)
  started := h.started
  inside := h.inside

theorem done_iff {s : JsonArrayScanner} (h : s.Inv) : s.done = true ↔ s.position = .after := by
  rw [position]
  cases hdone : s.done with
  | true =>
    rw [h.started hdone]
    exact iff_of_true rfl rfl
  | false =>
    refine iff_of_false Bool.false_ne_true ?_
    cases s.started with
    | false => exact nofun
    | true =>
      cases s.elemStart with
      | none => exact nofun
      | some start => exact nofun

theorem pending_eq {s : JsonArrayScanner} (h : s.Inv)
    (hun : s.unread ≠ [] → s.position = .after) : s.pending = s.position.pending := by
  cases helem : s.elemStart with
  | none =>
    rw [pending, position, helem]
    split_ifs <;> rfl
  | some start =>
    obtain ⟨hstarted, hdone, hlt, -⟩ := h.inside start helem
    have hpos : s.position = .inside (slice s.buf start s.i) s.depth.toNat s.inString s.escaped := by
      rw [position, hstarted, hdone, helem]
      rfl
    have hall : s.buf.length ≤ s.i := by
      by_contra hlt'
      have hne : s.unread ≠ [] := by
        rw [unread, ne_eq, List.drop_eq_nil_iff]
        exact hlt'
      rw [hun hne] at hpos
      cases hpos
    rw [pending, helem, hpos, Position.pending]
    dsimp only
    rw [length_slice h.bound, le_antisymm h.bound hall]

/-! ### Refinement -/

variable {ε S : Type} {bad : LexError → ε} {push : S → Bytes → Except ε S}
  {s s' : JsonArrayScanner} {t : S} {start : Nat} {c : UInt8} {cs : Bytes}

theorem unread_cons (h : s.unread = c :: cs) :
    s.buf[s.i]? = some c ∧ s.i < s.buf.length ∧ s.buf.drop (s.i + 1) = cs := by
  rw [unread] at h
  have hlt : s.i < s.buf.length := by
    by_contra hle
    rw [List.drop_eq_nil_of_le (not_lt.mp hle)] at h
    cases h
  rw [List.drop_eq_getElem_cons hlt, List.cons.injEq] at h
  exact ⟨by rw [List.getElem?_eq_getElem hlt, h.1], hlt, h.2⟩

/-- Being inside an element that began at `start`. -/
structure Inside (s : JsonArrayScanner) (start : Nat) : Prop where
  bound : s.i ≤ s.buf.length
  elem : s.elemStart = some start
  started : s.started = true
  done : s.done = false
  le : start ≤ s.i

theorem Inside.position_eq (h : s.Inside start) :
    s.position = .inside (slice s.buf start s.i) s.depth.toNat s.inString s.escaped := by
  rw [position, h.started, h.done, h.elem]
  rfl

theorem objectByte_frame (s : JsonArrayScanner) (c : UInt8) :
    (s.objectByte c).1.buf = s.buf ∧ (s.objectByte c).1.i = s.i + 1 ∧
      (s.objectByte c).1.elemStart = s.elemStart ∧ (s.objectByte c).1.started = s.started ∧
      (s.objectByte c).1.done = s.done := by
  rw [objectByte]
  dsimp only
  split_ifs <;> exact ⟨rfl, rfl, rfl, rfl, rfl⟩

theorem objectByte_inside (h : s.Inside start) (hlt : s.i < s.buf.length) :
    (s.objectByte c).1.Inside start := by
  obtain ⟨hbuf, hi, helem, hstarted, hdone⟩ := s.objectByte_frame c
  refine ⟨?_, helem.trans h.elem, hstarted.trans h.started, hdone.trans h.done, ?_⟩
  · rw [hbuf, hi]
    exact hlt
  · rw [hi]
    exact h.le.trans (Nat.le_succ _)

theorem objectByte_depth (hd : 0 < s.depth) (hmore : (s.objectByte c).2 = false) :
    0 < (s.objectByte c).1.depth := by
  rw [objectByte] at hmore ⊢
  dsimp only at hmore ⊢
  split_ifs at hmore ⊢ <;> simp_all <;> omega

theorem insideStep_objectByte (h : s.Inside start) (hd : 0 < s.depth)
    (hget : s.buf[s.i]? = some c) (hlt : s.i < s.buf.length) :
    insideStep (slice s.buf start s.i) s.depth.toNat s.inString s.escaped c =
      if (s.objectByte c).2 then (.between, some (slice s.buf start (s.i + 1)))
      else ((s.objectByte c).1.position, none) := by
  rw [(objectByte_inside h hlt).position_eq, (s.objectByte_frame c).1, (s.objectByte_frame c).2.1,
    slice_succ h.le hget, insideStep, objectByte]
  dsimp only
  have hsub : s.depth.toNat - 1 = 0 ↔ s.depth - 1 = 0 := by omega
  have hpred : (s.depth - 1).toNat = s.depth.toNat - 1 := by omega
  have hsucc : (s.depth + 1).toNat = s.depth.toNat + 1 := by omega
  split_ifs <;> simp_all

variable (bad push t) in
/-- What scanning an object as far as it has arrived amounts to. -/
structure Scanned (s s' : JsonArrayScanner) (start : Nat) (fin : Bool) : Prop where
  inside : s'.Inside start
  buf : s'.buf = s.buf
  le : s.i ≤ s'.i
  more : fin = false → 0 < s'.depth ∧ s'.unread = [] ∧
    lex bad push (s.position, t) s.unread = .ok ((s'.position, t), [])
  complete : fin = true → s.i < s'.i ∧ lex bad push (s.position, t) s.unread =
    match push t (slice s.buf start s'.i) with
    | .error e => .error e
    | .ok t' => lex bad push (.between, t') s'.unread

theorem scanObject_spec (h : s.Inside start) (hd : 0 < s.depth) (hcs : s.unread = cs) :
    Scanned bad push t s (scanObject cs s).1 start (scanObject cs s).2 := by
  induction cs generalizing s with
  | nil =>
    refine ⟨h, rfl, le_refl _, fun _ => ⟨hd, hcs, ?_⟩, fun h => by cases h⟩
    rw [hcs]
    rfl
  | cons c cs ih =>
    obtain ⟨hget, hlt, hdrop⟩ := unread_cons hcs
    obtain ⟨hbuf, hi, -, -, -⟩ := s.objectByte_frame c
    have hin : (s.objectByte c).1.Inside start := objectByte_inside h hlt
    have hstep := insideStep_objectByte h hd hget hlt
    have hunread : (s.objectByte c).1.unread = cs := by rw [unread, hbuf, hi, hdrop]
    cases hfin : (s.objectByte c).2 with
    | true =>
      -- the element is complete
      have hscan : scanObject (c :: cs) s = ((s.objectByte c).1, true) := by
        rw [scanObject]
        split
        · next s' hout => rw [hout]
        · next s' hout => rw [hout] at hfin; cases hfin
      rw [hscan]
      have hlt' : s.i < (s.objectByte c).1.i := hi ▸ Nat.lt_succ_self _
      refine ⟨hin, hbuf, hlt'.le, fun h => (by cases h), fun _ => ⟨hlt', ?_⟩⟩
      rw [hfin, if_pos rfl] at hstep
      rw [hcs, lex, h.position_eq, consume_complete hstep, hi, hunread]
      cases push t (slice s.buf start (s.i + 1)) with
      | error e => rfl
      | ok t' => exact if_neg fun h => by cases h.1
    | false =>
      have hscan : scanObject (c :: cs) s = scanObject cs (s.objectByte c).1 := by
        rw [scanObject]
        split
        · next s' hout => rw [hout] at hfin; cases hfin
        · next s' hout => rw [hout]
      rw [hfin, if_neg Bool.false_ne_true] at hstep
      have hopen : (s.objectByte c).1.position ≠ .after := by
        rw [hin.position_eq]
        exact fun h => by cases h
      have hlex : lex bad push (s.position, t) s.unread =
          lex bad push ((s.objectByte c).1.position, t) (s.objectByte c).1.unread := by
        rw [hcs, hunread, h.position_eq]
        exact lex_cons_open (consume_inside hstep) hopen
      have hrec := ih hin (objectByte_depth hd hfin) hunread
      rw [hscan]
      have hle := hrec.le
      refine ⟨hrec.inside, hrec.buf.trans hbuf, by omega, fun hm => ?_, fun hm => ?_⟩
      · obtain ⟨hd', hun, hl⟩ := hrec.more hm
        exact ⟨hd', hun, hlex.trans hl⟩
      · obtain ⟨hlt', hl⟩ := hrec.complete hm
        rw [hbuf] at hl
        exact ⟨by omega, hlex.trans hl⟩

/-! ### The next element -/

variable (bad push t) in
/-- What a call of `next` that does not fail amounts to. -/
structure Advanced (s s' : JsonArrayScanner) (out : Option Bytes) : Prop where
  inv : s'.Inv
  none : out = none →
    lex bad push (s.position, t) s.unread = .ok ((s'.position, t), s'.unread)
  some : ∀ elem, out = some elem → s'.unread.length < s.unread.length ∧
    lex bad push (s.position, t) s.unread =
      match push t elem with
      | .error e => .error e
      | .ok t' => lex bad push (s'.position, t') s'.unread

theorem Advanced.of_lex_eq {s₁ : JsonArrayScanner} {out : Option Bytes}
    (h : Advanced bad push t s₁ s' out) (hlen : s₁.unread.length ≤ s.unread.length)
    (hlex : lex bad push (s.position, t) s.unread = lex bad push (s₁.position, t) s₁.unread) :
    Advanced bad push t s s' out where
  inv := h.inv
  none := fun hout => hlex.trans (h.none hout)
  some := fun elem hout =>
    ⟨(h.some elem hout).1.trans_le hlen, hlex.trans (h.some elem hout).2⟩

theorem length_unread (s : JsonArrayScanner) : s.unread.length = s.buf.length - s.i :=
  List.length_drop

theorem Scanned.advanced {fin : Bool} (h : Scanned bad push t s s' start fin)
    (hstart : start < s.i) :
    Advanced bad push t s
      (if fin then { s' with elemStart := none } else s')
      (if fin then some (slice s'.buf start s'.i) else none) := by
  cases fin with
  | false =>
    obtain ⟨hd, hun, hlex⟩ := h.more rfl
    refine ⟨⟨h.inside.bound, fun hdone => ?_, fun st hst => ?_⟩, fun _ => ?_, fun elem hout => ?_⟩
    · rw [if_neg Bool.false_ne_true, h.inside.done] at hdone
      cases hdone
    · rw [if_neg Bool.false_ne_true, h.inside.elem, Option.some.injEq] at hst
      subst hst
      exact ⟨h.inside.started, h.inside.done, hstart.trans_le h.le, hd⟩
    · rw [if_neg Bool.false_ne_true, hun]
      exact hlex
    · cases hout
  | true =>
    obtain ⟨hlt, hlex⟩ := h.complete rfl
    have hpos : position { s' with elemStart := none } = .between := by
      rw [position, h.inside.started, h.inside.done]
      rfl
    refine ⟨⟨h.inside.bound, fun _ => h.inside.started, nofun⟩,
      nofun, fun elem hout => ⟨?_, ?_⟩⟩
    · have hbound := h.inside.bound
      rw [h.buf] at hbound
      change s'.unread.length < s.unread.length
      rw [length_unread, length_unread, h.buf]
      omega
    · rw [if_pos rfl, Option.some.injEq, h.buf] at hout
      rw [hlex, hout, if_pos rfl, hpos]
      rfl

theorem nextInside_eq (s : JsonArrayScanner) (start : Nat) :
    s.nextInside start =
      (if (scanObject s.unread s).2 then { (scanObject s.unread s).1 with elemStart := none }
        else (scanObject s.unread s).1,
      if (scanObject s.unread s).2 then
        some (slice (scanObject s.unread s).1.buf start (scanObject s.unread s).1.i)
      else none) := by
  rw [nextInside, unread]
  split
  · next s' hout => rw [hout]; rfl
  · next s' hout => rw [hout]; rfl

theorem nextInside_spec (h : s.Inv) (helem : s.elemStart = some start) :
    Advanced bad push t s (s.nextInside start).1 (s.nextInside start).2 := by
  obtain ⟨hstarted, hdone, hlt, hd⟩ := h.inside start helem
  have hscan : Scanned bad push t s _ start _ :=
    scanObject_spec ⟨h.bound, helem, hstarted, hdone, hlt.le⟩ hd rfl
  rw [nextInside_eq]
  exact hscan.advanced hlt

theorem position_idle (helem : s.elemStart = none) :
    s.position = if ¬ s.started then .before else if s.done then .after else .between := by
  rw [position, helem]

theorem unread_skip (p : UInt8 → Bool) (s : JsonArrayScanner) :
    (s.skip p).unread = s.unread.dropWhile p := by
  have hdrop : (s.skip p).unread = s.unread.drop (s.unread.takeWhile p).length := by
    rw [unread, skip, unread, List.drop_drop]
  have hleft : (s.unread.takeWhile p ++ s.unread.dropWhile p).drop
      (s.unread.takeWhile p).length = s.unread.dropWhile p := List.drop_left
  rw [List.takeWhile_append_dropWhile] at hleft
  rw [hdrop, hleft]

theorem unread_compact (s : JsonArrayScanner) : s.compact.unread = s.unread := by
  rw [compact]
  split_ifs
  · rfl
  · rw [unread, unread, List.drop_zero]

theorem compact_fields (s : JsonArrayScanner) : s.compact.started = s.started ∧
    s.compact.done = s.done ∧ s.compact.elemStart = s.elemStart := by
  rw [compact]
  split_ifs <;> exact ⟨rfl, rfl, rfl⟩

theorem inv_skip (h : s.Inv) (helem : s.elemStart = none) (p : UInt8 → Bool) :
    (s.skip p).Inv where
  bound := by
    have hle := (List.takeWhile_prefix (l := s.buf.drop s.i) p).length_le
    have hbound := h.bound
    rw [List.length_drop] at hle
    rw [skip]
    dsimp only
    omega
  started := h.started
  inside := by
    intro start hstart
    rw [skip, helem] at hstart
    cases hstart

theorem inv_compact (h : s.Inv) : s.compact.Inv := by
  rw [compact]
  split_ifs with hcond
  · exact h
  · rw [not_or, Bool.not_eq_true, Option.isSome_eq_false_iff, Option.isNone_iff_eq_none] at hcond
    refine ⟨Nat.zero_le _, h.started, fun start hstart => ?_⟩
    rw [hcond.1] at hstart
    cases hstart

theorem nextInside_fresh (hstarted : s.started = true) (hdone : s.done = false)
    (helem : s.elemStart = none) (hc : s.unread = lbrace :: cs) :
    Advanced bad push t s
      (nextInside { s with
        elemStart := some s.i, depth := 0, inString := false, escaped := false } s.i).1
      (nextInside { s with
        elemStart := some s.i, depth := 0, inString := false, escaped := false } s.i).2 := by
  obtain ⟨hget, hlt, hdrop⟩ := unread_cons hc
  -- scanning begins with the brace itself
  obtain ⟨s₁, hs₁⟩ : ∃ s₁ : JsonArrayScanner, s₁ = { s with
      elemStart := some s.i, depth := 1, inString := false, escaped := false, i := s.i + 1 } :=
    ⟨_, rfl⟩
  have hin : s₁.Inside s.i := by
    rw [hs₁]
    exact ⟨hlt, rfl, hstarted, hdone, Nat.le_succ _⟩
  have hun : s₁.unread = cs := by rw [hs₁]; exact hdrop
  have hscan : ∀ s₀ : JsonArrayScanner, s₀ = { s with
      elemStart := some s.i, depth := 0, inString := false, escaped := false } →
      nextInside s₀ s.i = nextInside s₁ s.i := by
    intro s₀ hs₀
    have hun₀ : s₀.unread = lbrace :: cs := by rw [hs₀]; exact hc
    have hbyte : s₀.objectByte lbrace = (s₁, false) := by rw [hs₀, hs₁]; rfl
    rw [nextInside_eq, nextInside_eq, hun₀, hun, scanObject, hbyte]
  rw [hscan _ rfl]
  have hadv : Advanced bad push t s₁ (nextInside s₁ s.i).1 (nextInside s₁ s.i).2 := by
    rw [nextInside_eq]
    exact (scanObject_spec hin (by rw [hs₁]; exact Int.one_pos) rfl).advanced
      (by rw [hs₁]; exact Nat.lt_succ_self _)
  refine hadv.of_lex_eq (by rw [hun, hc]; exact Nat.le_succ _) ?_
  have hpos : s.position = .between := by
    rw [position_idle helem, hstarted, hdone]
    rfl
  have hpos₁ : s₁.position = .inside [lbrace] 1 false false := by
    rw [hin.position_eq, hs₁]
    dsimp only
    rw [slice_singleton hget]
    rfl
  rw [hc, hun, hpos, hpos₁]
  exact lex_cons_open rfl nofun

theorem getElem?_i (s : JsonArrayScanner) : s.buf[s.i]? = s.unread.head? := by
  rw [unread, List.head?_drop]

theorem not_of_dropWhile {p : UInt8 → Bool} {b : Bytes} (h : b.dropWhile p = c :: cs) :
    p c = false := by
  have hhead := List.head?_dropWhile_not p b
  rw [h] at hhead
  simpa using hhead

theorem skipped_spec (h : s.Inv) (helem : s.elemStart = none) (p : UInt8 → Bool) :
    (s.skip p).compact.Inv ∧ (s.skip p).compact.elemStart = none ∧
      (s.skip p).compact.started = s.started ∧ (s.skip p).compact.done = s.done ∧
      (s.skip p).compact.unread = s.unread.dropWhile p := by
  obtain ⟨hstarted, hdone, helem'⟩ := (s.skip p).compact_fields
  exact ⟨inv_compact (inv_skip h helem p), helem'.trans helem, hstarted, hdone,
    (unread_compact _).trans (unread_skip p s)⟩

variable (bad push t) in
theorem nextElem_spec (h : s.Inv) (hstarted : s.started = true) :
    match s.nextElem with
    | .error e => lex bad push (s.position, t) s.unread = .error (bad e)
    | .ok (s', out) => Advanced bad push t s s' out := by
  rw [nextElem]
  cases helem : s.elemStart with
  | some start => exact nextInside_spec h helem
  | none =>
    dsimp only
    obtain ⟨hinv₁, helem₁, hstarted₁, hdone₁, hun₁⟩ := skipped_spec h helem isSeparator
    generalize (s.skip isSeparator).compact = s₁ at *
    have hpos : s₁.position = s.position := by
      rw [position_idle helem₁, position_idle helem, hstarted₁, hdone₁]
    have hside : s.position = .between ∨ s.position = .after := by
      rw [position_idle helem, hstarted]
      cases s.done with
      | true => exact .inr rfl
      | false => exact .inl rfl
    have hlex : lex bad push (s.position, t) s.unread =
        lex bad push (s₁.position, t) s₁.unread := by
      rw [hpos, hun₁]
      exact lex_skip (fun w hw => feed_separators hw hside) s.unread
    have hlen : s₁.unread.length ≤ s.unread.length := by
      rw [hun₁]
      exact List.length_dropWhile_le _ _
    rw [getElem?_i]
    cases hhead : s₁.unread with
    | nil =>
      refine ⟨hinv₁, fun _ => ?_, nofun⟩
      rw [hlex, hhead]
      rfl
    | cons c cs =>
      have hsep : isSeparator c = false := not_of_dropWhile (hun₁.symm.trans hhead)
      rw [List.head?_cons]
      dsimp only
      cases hdone : s₁.done with
      | true =>
        have hafter : s₁.position = .after := by
          rw [position_idle helem₁, hstarted₁, hstarted, hdone]
          rfl
        rw [if_pos rfl]
        dsimp only
        rw [hlex, hhead, hafter, lex, consume, step, hsep]
        rfl
      | false =>
        have hbetween : s₁.position = .between := by
          rw [position_idle helem₁, hstarted₁, hstarted, hdone]
          rfl
        obtain ⟨-, hlt, hdrop⟩ := unread_cons hhead
        rw [if_neg Bool.false_ne_true]
        split_ifs with hclose hbrace
        · -- the array closes
          subst hclose
          have hpos' : position { s₁ with done := true, i := s₁.i + 1 } = .after := by
            rw [position_idle (s := { s₁ with done := true, i := s₁.i + 1 }) helem₁]
            dsimp only
            rw [hstarted₁, hstarted]
            rfl
          refine ⟨⟨hlt, fun _ => hstarted₁.trans hstarted, fun start hstart => ?_⟩, fun _ => ?_,
            nofun⟩
          · rw [helem₁] at hstart
            cases hstart
          · rw [hlex, hhead, hbetween, hpos', unread]
            dsimp only
            rw [hdrop]
            rfl
        · dsimp only
          rw [hlex, hhead, hbetween, lex, consume, step, hsep]
          simp [hclose, hbrace]
        · rw [ne_eq, not_not] at hbrace
          subst hbrace
          have hfresh : Advanced bad push t s₁ _ _ :=
            nextInside_fresh (hstarted₁.trans hstarted) hdone helem₁ hhead
          rw [hdone] at hfresh
          exact hfresh.of_lex_eq hlen hlex

variable (bad push t) in
/-- **A call of `next`** either fails as the lexer fails on the unread bytes, or moves to a
scanner from which the lexer continues. -/
theorem next_spec (h : s.Inv) :
    match s.next with
    | .error e => lex bad push (s.position, t) s.unread = .error (bad e)
    | .ok (s', out) => Advanced bad push t s s' out := by
  rw [next]
  cases hstarted : s.started with
  | true =>
    rw [if_pos rfl]
    exact nextElem_spec bad push t h hstarted
  | false =>
    rw [if_neg Bool.false_ne_true]
    dsimp only
    have helem : s.elemStart = none := by
      cases helem : s.elemStart with
      | none => rfl
      | some start => rw [(h.inside start helem).1] at hstarted; cases hstarted
    have hinv₁ := inv_skip h helem isBlank
    have hun₁ := unread_skip isBlank s
    have hstarted₁ : (s.skip isBlank).started = false := hstarted
    have helem₁ : (s.skip isBlank).elemStart = none := helem
    have hdone₁ : (s.skip isBlank).done = false := by
      cases hdone : s.done with
      | true => rw [h.started hdone] at hstarted; cases hstarted
      | false => exact hdone
    generalize s.skip isBlank = s₁ at *
    have hpos : s.position = .before := by
      rw [position_idle helem, hstarted]
      rfl
    have hpos₁ : s₁.position = .before := by
      rw [position_idle helem₁, hstarted₁]
      rfl
    have hlex : lex bad push (s.position, t) s.unread =
        lex bad push (s₁.position, t) s₁.unread := by
      rw [hpos, hpos₁, hun₁]
      exact lex_skip (fun w hw => feed_blank_before (List.all_eq_true.mp hw)) s.unread
    have hlen : s₁.unread.length ≤ s.unread.length := by
      rw [hun₁]
      exact List.length_dropWhile_le _ _
    rw [getElem?_i]
    cases hhead : s₁.unread with
    | nil =>
      refine ⟨hinv₁, fun _ => ?_, fun _ h => by cases h⟩
      rw [hlex, hhead]
      rfl
    | cons c cs =>
      have hblank : isBlank c = false := not_of_dropWhile (hun₁.symm.trans hhead)
      obtain ⟨-, hlt, hdrop⟩ := unread_cons hhead
      rw [List.head?_cons]
      dsimp only
      split_ifs with hopen
      · dsimp only
        rw [hlex, hhead, hpos₁, lex, consume, step, hblank]
        simp [hopen]
      · rw [ne_eq, not_not] at hopen
        subst hopen
        obtain ⟨s₂, hs₂⟩ : ∃ s₂ : JsonArrayScanner,
            s₂ = { s₁ with started := true, i := s₁.i + 1 } := ⟨_, rfl⟩
        have hun₂ : s₂.unread = cs := by rw [hs₂]; exact hdrop
        have hinv₂ : s₂.Inv := by
          rw [hs₂]
          refine ⟨hlt, fun _ => rfl, fun start hstart => ?_⟩
          rw [helem₁] at hstart
          cases hstart
        have hpos₂ : s₂.position = .between := by
          rw [position_idle (by rw [hs₂]; exact helem₁), hs₂]
          dsimp only
          rw [hdone₁]
          rfl
        have hlex₂ : lex bad push (s.position, t) s.unread =
            lex bad push (s₂.position, t) s₂.unread := by
          rw [hlex, hhead, hpos₁, hun₂, hpos₂]
          exact lex_cons_open rfl fun h => by cases h
        have hlen₂ : s₂.unread.length ≤ s.unread.length := by
          rw [hun₂]
          rw [hhead, List.length_cons] at hlen
          omega
        have hnext := nextElem_spec bad push t hinv₂ (by rw [hs₂])
        rw [← hs₂]
        cases hout : s₂.nextElem with
        | error e =>
          rw [hout] at hnext
          exact hlex₂.trans hnext
        | ok out =>
          rw [hout] at hnext
          exact Advanced.of_lex_eq hnext hlen₂ hlex₂

/-- **Draining the scanner is running the lexer** over the unread bytes. -/
theorem drainLoop_spec {fuel : Nat} (h : s.Inv) (hfuel : s.unread.length < fuel) :
    match lex bad push (s.position, t) s.unread with
    | .error e => drainLoop bad push fuel (s, t) = .error e
    | .ok (st, rest) => ∃ s', drainLoop bad push fuel (s, t) = .ok (s', st.2) ∧ s'.Inv ∧
        s'.position = st.1 ∧ s'.unread = rest := by
  induction fuel generalizing s t with
  | zero => exact absurd hfuel (Nat.not_lt_zero _)
  | succ fuel ih =>
    have hnext := next_spec bad push t h
    rw [drainLoop]
    cases hout : s.next with
    | error e =>
      rw [hout] at hnext
      rw [hnext]
    | ok out =>
      obtain ⟨s', elem⟩ := out
      rw [hout] at hnext
      cases elem with
      | none =>
        rw [hnext.none rfl]
        exact ⟨s', rfl, hnext.inv, rfl, rfl⟩
      | some elem =>
        obtain ⟨hlt, hlex⟩ := hnext.some elem rfl
        rw [hlex]
        dsimp only
        cases push t elem with
        | error e => rfl
        | ok t' => exact ih hnext.inv (by omega)

variable (bad push t) in
theorem drain_spec (h : s.Inv) :
    match lex bad push (s.position, t) s.unread with
    | .error e => drain bad push (s, t) = .error e
    | .ok (st, rest) => ∃ s', drain bad push (s, t) = .ok (s', st.2) ∧ s'.Inv ∧
        s'.position = st.1 ∧ s'.unread = rest := by
  refine drainLoop_spec h ?_
  rw [length_unread]
  dsimp only
  omega

end JsonArrayScanner

end Boundarylog
