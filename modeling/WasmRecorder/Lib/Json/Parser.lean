import WasmRecorder.Lib.Json.Syntax

/-!
# Parsing JSON

A recursive-descent parser for `Json.Value` and its agreement with the grammar.

* `parse` reads a whole document; it is `none` exactly on the texts that are no JSON
  document (`parse_eq_some_iff`).
* `parseValue`, `parseElems` and `parseMembers` are the parsers of the three kinds of
  phrase. They take fuel, which bounds the nesting and never runs out on a fuel
  linear in the text (`Renders.parses`).

Both directions are inductions with one statement for each kind of phrase: on the
fuel for soundness (`parse_sound`), on the derivation for completeness.
-/

namespace Json

/-! ### Lexemes -/

/-- Read the body of a string up to its closing quote: the body and the text behind
the quote. -/
def takeBody : Bytes → Option (Bytes × Bytes)
  | [] => none
  | 0x22 :: r => some ([], r)
  | 0x5c :: 0x75 :: d₁ :: d₂ :: d₃ :: d₄ :: r =>
    if isHex d₁ ∧ isHex d₂ ∧ isHex d₃ ∧ isHex d₄ then
      (takeBody r).map fun x => (0x5c :: 0x75 :: d₁ :: d₂ :: d₃ :: d₄ :: x.1, x.2)
    else none
  | 0x5c :: c :: r =>
    if isSimpleEscape c then (takeBody r).map fun x => (0x5c :: c :: x.1, x.2) else none
  | c :: r =>
    if 0x20 ≤ c ∧ c ≠ backslash then (takeBody r).map fun x => (c :: x.1, x.2) else none

/-- The literal `lit` in front of `b`, and what stands behind it. -/
def takeLiteral (lit : Bytes) (v : Value) (b : Bytes) : Option (Value × Bytes) :=
  if lit.isPrefixOf b then some (v, b.drop lit.length) else none

/-- A number literal in front of `b`, and what stands behind it. -/
def takeNumber (b : Bytes) : Option (Value × Bytes) :=
  if isNumber (b.takeWhile isNumberByte) then
    some (.number (b.takeWhile isNumberByte), b.dropWhile isNumberByte)
  else none

/-- A value that is not an array or an object. -/
def takeScalar : Bytes → Option (Value × Bytes)
  | [] => none
  | c :: r =>
    if c = quote then (takeBody r).map fun x => (.string x.1, x.2)
    else if c = 0x2d ∨ isDigit c then takeNumber (c :: r)
    else if c = 0x6e then takeLiteral nullLexeme .null (c :: r)
    else if c = 0x74 then takeLiteral trueLexeme (.bool true) (c :: r)
    else if c = 0x66 then takeLiteral falseLexeme (.bool false) (c :: r)
    else none

/-! ### The parser -/

mutual

/-- Read a value that starts at the head of the text. -/
def parseValue : Nat → Bytes → Option (Value × Bytes)
  | 0, _ => none
  | _ + 1, [] => none
  | fuel + 1, c :: r =>
    if c = lbracket then
      if (skipBlank r).head? = some rbracket then some (.array [], (skipBlank r).tail)
      else (parseElems fuel (skipBlank r)).map fun x => (.array x.1, x.2)
    else if c = lbrace then
      if (skipBlank r).head? = some rbrace then some (.object [], (skipBlank r).tail)
      else (parseMembers fuel (skipBlank r)).map fun x => (.object x.1, x.2)
    else takeScalar (c :: r)

/-- Read array elements up to and including the closing bracket. -/
def parseElems : Nat → Bytes → Option (List Value × Bytes)
  | 0, _ => none
  | fuel + 1, b =>
    (parseValue fuel b).bind fun x =>
      match skipBlank x.2 with
      | [] => none
      | c :: r =>
        if c = comma then (parseElems fuel (skipBlank r)).map fun y => (x.1 :: y.1, y.2)
        else if c = rbracket then some ([x.1], r)
        else none

/-- Read object members up to and including the closing brace. -/
def parseMembers : Nat → Bytes → Option (List (Bytes × Value) × Bytes)
  | 0, _ => none
  | _ + 1, [] => none
  | fuel + 1, q :: b =>
    if q = quote then
      (takeBody b).bind fun k =>
        if (skipBlank k.2).head? = some colon then
          (parseValue fuel (skipBlank (skipBlank k.2).tail)).bind fun x =>
            match skipBlank x.2 with
            | [] => none
            | c :: r =>
              if c = comma then
                (parseMembers fuel (skipBlank r)).map fun y => ((k.1, x.1) :: y.1, y.2)
              else if c = rbrace then some ([(k.1, x.1)], r)
              else none
        else none
    else none

end

/-- Read a whole document. -/
def parse (b : Bytes) : Option Value :=
  (parseValue (2 * b.length) (skipBlank b)).bind fun x =>
    if skipBlank x.2 = [] then some x.1 else none

/-! ### Soundness -/

variable {r : Bytes}

theorem takeBody_sound {b s : Bytes} (h : takeBody b = some (s, r)) :
    Body s ∧ b = s ++ quote :: r := by
  fun_induction takeBody b generalizing s with
  | case1 => simp at h
  | case2 r' =>
    simp only [Option.some.injEq, Prod.mk.injEq] at h
    obtain ⟨rfl, rfl⟩ := h
    exact ⟨.nil, rfl⟩
  | case3 d₁ d₂ d₃ d₄ r' hhex ih =>
    obtain ⟨⟨s', r''⟩, hrest, hout⟩ := Option.map_eq_some_iff.mp h
    simp only [Prod.mk.injEq] at hout
    obtain ⟨rfl, rfl⟩ := hout
    obtain ⟨hs, rfl⟩ := ih hrest
    exact ⟨.unicode hhex.1 hhex.2.1 hhex.2.2.1 hhex.2.2.2 hs, rfl⟩
  | case4 => simp at h
  | case5 c r' _ hesc ih =>
    obtain ⟨⟨s', r''⟩, hrest, hout⟩ := Option.map_eq_some_iff.mp h
    simp only [Prod.mk.injEq] at hout
    obtain ⟨rfl, rfl⟩ := hout
    obtain ⟨hs, rfl⟩ := ih hrest
    exact ⟨.escape hesc hs, rfl⟩
  | case6 => simp at h
  | case7 c r' hq _ _ hc ih =>
    obtain ⟨⟨s', r''⟩, hrest, hout⟩ := Option.map_eq_some_iff.mp h
    simp only [Prod.mk.injEq] at hout
    obtain ⟨rfl, rfl⟩ := hout
    obtain ⟨hs, rfl⟩ := ih hrest
    exact ⟨.plain hc.1 hq hc.2 hs, rfl⟩
  | case8 => simp at h

theorem takeLiteral_sound {lit b : Bytes} {v v' : Value} (h : takeLiteral lit v b = some (v', r)) :
    v' = v ∧ b = lit ++ r := by
  unfold takeLiteral at h
  split at h
  · next hpre =>
    simp only [Option.some.injEq, Prod.mk.injEq] at h
    obtain ⟨rfl, rfl⟩ := h
    obtain ⟨t, rfl⟩ := List.isPrefixOf_iff_prefix.mp hpre
    exact ⟨rfl, by simp⟩
  · simp at h

theorem takeScalar_sound {b : Bytes} {v : Value} (h : takeScalar b = some (v, r)) :
    ∃ t, Renders (.value v) t ∧ b = t ++ r := by
  unfold takeScalar at h
  split at h
  · simp at h
  · next c b' =>
    split at h
    · next hc =>
      subst hc
      obtain ⟨⟨s, r'⟩, hrest, hout⟩ := Option.map_eq_some_iff.mp h
      simp only [Prod.mk.injEq] at hout
      obtain ⟨rfl, rfl⟩ := hout
      obtain ⟨hs, rfl⟩ := takeBody_sound hrest
      exact ⟨_, .string hs, by simp⟩
    · split at h
      · unfold takeNumber at h
        split at h
        · next hnum =>
          simp only [Option.some.injEq, Prod.mk.injEq] at h
          obtain ⟨rfl, rfl⟩ := h
          exact ⟨_, .number hnum, List.takeWhile_append_dropWhile.symm⟩
        · simp at h
      · split at h
        · obtain ⟨rfl, hb⟩ := takeLiteral_sound h
          exact ⟨_, .null, hb⟩
        · split at h
          · obtain ⟨rfl, hb⟩ := takeLiteral_sound h
            exact ⟨_, .trueLit, hb⟩
          · split at h
            · obtain ⟨rfl, hb⟩ := takeLiteral_sound h
              exact ⟨_, .falseLit, hb⟩
            · simp at h

private theorem skipBlank_token {b : Bytes} {c : UInt8} (h : skipBlank b = c :: r) :
    ∃ w, Blank w ∧ b = w ++ c :: r := by
  obtain ⟨w, hw, hb⟩ := exists_skipBlank b
  exact ⟨w, hw, by rw [← h]; exact hb⟩

private theorem skipBlank_head {b : Bytes} {c : UInt8} (h : (skipBlank b).head? = some c) :
    ∃ w, Blank w ∧ b = w ++ c :: (skipBlank b).tail :=
  skipBlank_token (List.eq_cons_of_mem_head? h)

/-- Soundness of the three parsers at once, by induction on the fuel. A sequence
parser has consumed the closing token of the sequence. -/
theorem parse_sound (fuel : Nat) :
    (∀ b v r, parseValue fuel b = some (v, r) → ∃ t, Renders (.value v) t ∧ b = t ++ r) ∧
    (∀ b vs r, parseElems fuel b = some (vs, r) →
      ∃ t, Renders (.elems vs) t ∧ b = t ++ rbracket :: r) ∧
    (∀ b ms r, parseMembers fuel b = some (ms, r) →
      ∃ t, Renders (.members ms) t ∧ b = t ++ rbrace :: r) := by
  induction fuel with
  | zero => refine ⟨?_, ?_, ?_⟩ <;> simp [parseValue, parseElems, parseMembers]
  | succ fuel ih =>
    obtain ⟨ihv, ihe, ihm⟩ := ih
    refine ⟨?_, ?_, ?_⟩
    · rintro (_ | ⟨c, b⟩) v r h
      · simp [parseValue] at h
      rw [parseValue] at h
      split at h
      · next hc =>
        subst hc
        split at h
        · next hhead =>
          simp only [Option.some.injEq, Prod.mk.injEq] at h
          obtain ⟨rfl, rfl⟩ := h
          obtain ⟨w, hw, hb⟩ := skipBlank_head hhead
          exact ⟨_, .emptyArray hw, by simpa using hb⟩
        · obtain ⟨⟨vs, r'⟩, hrest, hout⟩ := Option.map_eq_some_iff.mp h
          simp only [Prod.mk.injEq] at hout
          obtain ⟨rfl, rfl⟩ := hout
          obtain ⟨t, ht, hskip⟩ := ihe _ _ _ hrest
          obtain ⟨w, hw, hb⟩ := exists_skipBlank b
          -- the blanks after the bracket join those before the first element
          exact ⟨_, .array (ht.elems_blank hw), by rw [hb, hskip]; simp⟩
      · split at h
        · next hc =>
          subst hc
          split at h
          · next hhead =>
            simp only [Option.some.injEq, Prod.mk.injEq] at h
            obtain ⟨rfl, rfl⟩ := h
            obtain ⟨w, hw, hb⟩ := skipBlank_head hhead
            exact ⟨_, .emptyObject hw, by simpa using hb⟩
          · obtain ⟨⟨ms, r'⟩, hrest, hout⟩ := Option.map_eq_some_iff.mp h
            simp only [Prod.mk.injEq] at hout
            obtain ⟨rfl, rfl⟩ := hout
            obtain ⟨t, ht, hskip⟩ := ihm _ _ _ hrest
            obtain ⟨w, hw, hb⟩ := exists_skipBlank b
            exact ⟨_, .object (ht.members_blank hw), by rw [hb, hskip]; simp⟩
        · exact takeScalar_sound h
    · intro b vs r h
      rw [parseElems, Option.bind_eq_some_iff] at h
      obtain ⟨⟨v, r₁⟩, hv, h⟩ := h
      obtain ⟨t, ht, rfl⟩ := ihv _ _ _ hv
      dsimp only at h
      split at h
      · simp at h
      · next c r₂ hskip =>
        obtain ⟨w, hw, rfl⟩ := skipBlank_token hskip
        split at h
        · next hc =>
          subst hc
          obtain ⟨⟨vs', r₃⟩, hrest, hout⟩ := Option.map_eq_some_iff.mp h
          simp only [Prod.mk.injEq] at hout
          obtain ⟨rfl, rfl⟩ := hout
          obtain ⟨t', ht', hskip'⟩ := ihe _ _ _ hrest
          obtain ⟨w', hw', hb'⟩ := exists_skipBlank r₂
          exact ⟨_, .elem .nil ht hw (ht'.elems_blank hw'), by rw [hb', hskip']; simp⟩
        · split at h
          · next hc =>
            subst hc
            simp only [Option.some.injEq, Prod.mk.injEq] at h
            obtain ⟨rfl, rfl⟩ := h
            exact ⟨_, .lastElem .nil ht hw, by simp⟩
          · simp at h
    · rintro (_ | ⟨q, b⟩) ms r h
      · simp [parseMembers] at h
      rw [parseMembers] at h
      split at h
      · next hq =>
        subst hq
        rw [Option.bind_eq_some_iff] at h
        obtain ⟨⟨k, r₁⟩, hk, h⟩ := h
        obtain ⟨hbody, rfl⟩ := takeBody_sound hk
        dsimp only at h
        split at h
        · next hhead =>
          obtain ⟨w₂, hw₂, hr₁⟩ := skipBlank_head hhead
          rw [Option.bind_eq_some_iff] at h
          obtain ⟨⟨v, r₃⟩, hv, h⟩ := h
          obtain ⟨t, ht, hskip₃⟩ := ihv _ _ _ hv
          obtain ⟨w₃, hw₃, hb₃⟩ := exists_skipBlank (skipBlank r₁).tail
          have hr₁' : r₁ = w₂ ++ colon :: (w₃ ++ (t ++ r₃)) := by rw [← hskip₃, ← hb₃, ← hr₁]
          dsimp only at h
          split at h
          · simp at h
          · next c r₄ hskip₄ =>
            obtain ⟨w₄, hw₄, rfl⟩ := skipBlank_token hskip₄
            split at h
            · next hc =>
              subst hc
              obtain ⟨⟨ms', r₅⟩, hrest, hout⟩ := Option.map_eq_some_iff.mp h
              simp only [Prod.mk.injEq] at hout
              obtain ⟨rfl, rfl⟩ := hout
              obtain ⟨t', ht', hskip'⟩ := ihm _ _ _ hrest
              obtain ⟨w', hw', hb'⟩ := exists_skipBlank r₄
              exact ⟨_, .member .nil hbody hw₂ hw₃ ht hw₄ (ht'.members_blank hw'), by
                rw [hr₁', hb', hskip']; simp⟩
            · split at h
              · next hc =>
                subst hc
                simp only [Option.some.injEq, Prod.mk.injEq] at h
                obtain ⟨rfl, rfl⟩ := h
                exact ⟨_, .lastMember .nil hbody hw₂ hw₃ ht hw₄, by rw [hr₁']; simp⟩
              · simp at h
        · simp at h
      · simp at h

/-! ### Completeness -/

theorem takeBody_complete {s : Bytes} (hs : Body s) (r : Bytes) :
    takeBody (s ++ quote :: r) = some (s, r) := by
  induction hs with
  | nil => rfl
  | @plain c b hc hq hb _ ih =>
    rw [List.cons_append, takeBody]
    · rw [if_pos ⟨hc, hb⟩, ih]; rfl
    · exact hq
    · rintro d₁ d₂ d₃ d₄ r' h - ; exact hb h
    · rintro c' r' h - ; exact hb h
  | @escape c b hc _ ih =>
    rw [List.cons_append, List.cons_append, takeBody]
    · rw [if_pos hc, ih]; rfl
    · rintro d₁ d₂ d₃ d₄ r' rfl - ; exact absurd hc (by decide)
  | unicode h₁ h₂ h₃ h₄ _ ih =>
    simp only [List.cons_append, takeBody, h₁, h₂, h₃, h₄, ih]
    rfl

/-- A text no number literal runs into. -/
def NoNumber (r : Bytes) : Prop := ∀ c ∈ r.head?, isNumberByte c = false

theorem NoNumber.cons {c : UInt8} (hc : isNumberByte c = false) : NoNumber (c :: r) := by
  simpa [NoNumber] using hc

theorem NoNumber.blank {w : Bytes} (hw : Blank w) (hr : NoNumber r) : NoNumber (w ++ r) := by
  cases w with
  | nil => exact hr
  | cons c w =>
    have hc : isBlank c = true := hw c List.mem_cons_self
    simp only [isBlank, decide_eq_true_eq] at hc
    refine NoNumber.cons ?_
    rcases hc with rfl | rfl | rfl | rfl <;> decide

theorem takeNumber_complete {l : Bytes} (hl : isNumber l = true) (hr : NoNumber r) :
    takeNumber (l ++ r) = some (.number l, r) := by
  have hall := List.all_eq_true.mp (isNumber_all hl)
  have hdrop : r.dropWhile isNumberByte = r := by
    cases r with
    | nil => rfl
    | cons c r => exact List.dropWhile_cons_of_neg (by simpa [NoNumber] using hr)
  have htake : r.takeWhile isNumberByte = [] := by
    cases r with
    | nil => rfl
    | cons c r => exact List.takeWhile_cons_of_neg (by simpa [NoNumber] using hr)
  rw [takeNumber, List.takeWhile_append_of_pos hall, List.dropWhile_append_of_pos hall, hdrop,
    htake, List.append_nil, if_pos hl]

private theorem isDigit_ne {c : UInt8} (h : isDigit c = true) :
    c ≠ lbracket ∧ c ≠ lbrace ∧ c ≠ quote := by
  refine ⟨?_, ?_, ?_⟩ <;> (rintro rfl; exact absurd h (by decide))

private theorem parseValue_number {l : Bytes} (hl : isNumber l = true) (hr : NoNumber r)
    (fuel : Nat) : parseValue (fuel + 1) (l ++ r) = some (.number l, r) := by
  have hnum := takeNumber_complete hl hr
  obtain ⟨c, l', rfl, hc⟩ := isNumber_head hl
  have hne : c ≠ lbracket ∧ c ≠ lbrace ∧ c ≠ quote := by
    rcases hc with rfl | hc
    · decide
    · exact isDigit_ne hc
  rw [List.cons_append] at hnum ⊢
  rw [parseValue, if_neg hne.1, if_neg hne.2.1, takeScalar, if_neg hne.2.2, if_pos hc, hnum]

private theorem Renders.elems_head {vs : List Value} {t : Bytes} (h : Renders (.elems vs) t)
    (r : Bytes) : ∃ c r', skipBlank (t ++ r) = c :: r' ∧ startsValue c = true := by
  cases h with
  | lastElem hw₁ hv hw₂ =>
    obtain ⟨c, b, rfl, hc⟩ := hv.value_head
    simp only [List.append_assoc, List.cons_append]
    exact ⟨c, _, skipBlank_append_cons hw₁ (startsValue_not_blank hc) _, hc⟩
  | elem hw₁ hv hw₂ hs =>
    obtain ⟨c, b, rfl, hc⟩ := hv.value_head
    simp only [List.append_assoc, List.cons_append]
    exact ⟨c, _, skipBlank_append_cons hw₁ (startsValue_not_blank hc) _, hc⟩

private theorem Renders.members_head {ms : List (Bytes × Value)} {t : Bytes}
    (h : Renders (.members ms) t) (r : Bytes) : ∃ r', skipBlank (t ++ r) = quote :: r' := by
  cases h with
  | lastMember hw₁ hk hw₂ hw₃ hv hw₄ =>
    simp only [List.append_assoc, List.cons_append]
    exact ⟨_, skipBlank_append_cons hw₁ (by decide) _⟩
  | member hw₁ hk hw₂ hw₃ hv hw₄ hs =>
    simp only [List.append_assoc, List.cons_append]
    exact ⟨_, skipBlank_append_cons hw₁ (by decide) _⟩

/-- A value begins with no blank. -/
theorem skipBlank_value {w b : Bytes} {v : Value} (hw : Blank w) (hv : Renders (.value v) b)
    (r : Bytes) : skipBlank (w ++ (b ++ r)) = b ++ r := by
  obtain ⟨c, b', rfl, hc⟩ := hv.value_head
  rw [skipBlank_append hw, List.cons_append, skipBlank_cons (startsValue_not_blank hc)]

/-- What each parser does on a rendering of its kind of phrase. -/
def Parses (fuel : Nat) : Phrase → Bytes → Prop
  | .value v, t => ∀ r, 2 * t.length ≤ fuel → NoNumber r → parseValue fuel (t ++ r) = some (v, r)
  | .elems vs, t => ∀ r, 2 * t.length + 1 ≤ fuel →
      parseElems fuel (skipBlank (t ++ rbracket :: r)) = some (vs, r)
  | .members ms, t => ∀ r, 2 * t.length + 1 ≤ fuel →
      parseMembers fuel (skipBlank (t ++ rbrace :: r)) = some (ms, r)

/-- **Completeness of the three parsers**, by induction on the derivation. -/
theorem Renders.parses {p : Phrase} {t : Bytes} (h : Renders p t) : ∀ fuel, Parses fuel p t := by
  induction h with
  | null =>
    rintro (_ | fuel) r hfuel _
    · simp at hfuel
    · rfl
  | trueLit =>
    rintro (_ | fuel) r hfuel _
    · simp at hfuel
    · rfl
  | falseLit =>
    rintro (_ | fuel) r hfuel _
    · simp at hfuel
    · rfl
  | number hl =>
    rintro (_ | fuel) r hfuel hr
    · obtain ⟨c, l, rfl, -⟩ := isNumber_head hl
      simp at hfuel
    · exact parseValue_number hl hr fuel
  | @string s hs =>
    rintro (_ | fuel) r hfuel _
    · simp at hfuel
    · have hbody := takeBody_complete hs r
      have hsplit : quote :: s ++ [quote] ++ r = quote :: (s ++ quote :: r) := by simp
      rw [hsplit, parseValue, if_neg (by decide), if_neg (by decide), takeScalar, if_pos rfl, hbody]
      rfl
  | @emptyArray w hw =>
    rintro (_ | fuel) r hfuel _
    · simp at hfuel
    · have hsplit : lbracket :: w ++ [rbracket] ++ r = lbracket :: (w ++ rbracket :: r) := by simp
      rw [hsplit, parseValue, if_pos rfl, skipBlank_append_cons hw (by decide),
        if_pos List.head?_cons]
      rfl
  | @array vs b hb ih =>
    rintro (_ | fuel) r hfuel _
    · simp at hfuel
    · have hsplit : lbracket :: b ++ [rbracket] ++ r = lbracket :: (b ++ rbracket :: r) := by simp
      have hrest := ih fuel r (by simp at hfuel; omega)
      obtain ⟨c, r', hhead, hc⟩ := hb.elems_head (rbracket :: r)
      rw [hhead] at hrest
      have hne : (c :: r').head? ≠ some rbracket := by
        intro h
        rw [Option.some.inj h] at hc
        exact absurd hc (by decide)
      rw [hsplit, parseValue, if_pos rfl, hhead, if_neg hne, hrest]
      rfl
  | @emptyObject w hw =>
    rintro (_ | fuel) r hfuel _
    · simp at hfuel
    · have hsplit : lbrace :: w ++ [rbrace] ++ r = lbrace :: (w ++ rbrace :: r) := by simp
      rw [hsplit, parseValue, if_neg (by decide), if_pos rfl, skipBlank_append_cons hw (by decide),
        if_pos List.head?_cons]
      rfl
  | @object ms b hb ih =>
    rintro (_ | fuel) r hfuel _
    · simp at hfuel
    · have hsplit : lbrace :: b ++ [rbrace] ++ r = lbrace :: (b ++ rbrace :: r) := by simp
      have hrest := ih fuel r (by simp at hfuel; omega)
      obtain ⟨r', hhead⟩ := hb.members_head (rbrace :: r)
      rw [hhead] at hrest
      have hne : (quote :: r').head? ≠ some rbrace := fun h => absurd (Option.some.inj h) (by decide)
      rw [hsplit, parseValue, if_neg (by decide), if_pos rfl, hhead, if_neg hne, hrest]
      rfl
  | @lastElem v w₁ b w₂ hw₁ hv hw₂ ih =>
    rintro (_ | fuel) r hfuel
    · simp at hfuel
    · have hval := ih fuel (w₂ ++ rbracket :: r) (by simp at hfuel; omega)
        (NoNumber.blank hw₂ (NoNumber.cons (by decide)))
      rw [List.append_assoc, List.append_assoc, skipBlank_value hw₁ hv, parseElems, hval, Option.bind_some, skipBlank_append_cons hw₂ (by decide)]
      rfl
  | @elem v vs w₁ b w₂ bs hw₁ hv hw₂ _ ih ihs =>
    rintro (_ | fuel) r hfuel
    · simp at hfuel
    · have hval := ih fuel (w₂ ++ comma :: (bs ++ rbracket :: r)) (by simp at hfuel; omega)
        (NoNumber.blank hw₂ (NoNumber.cons (by decide)))
      have hrest := ihs fuel r (by simp at hfuel; omega)
      simp only [List.append_assoc, List.cons_append]
      rw [skipBlank_value hw₁ hv, parseElems, hval, Option.bind_some, skipBlank_append_cons hw₂ (by decide)]
      dsimp only
      rw [if_pos rfl, hrest]
      rfl
  | @lastMember k v w₁ w₂ w₃ b w₄ hw₁ hk hw₂ hw₃ hv hw₄ ih =>
    rintro (_ | fuel) r hfuel
    · simp at hfuel
    · have hval := ih fuel (w₄ ++ rbrace :: r) (by simp at hfuel; omega)
        (NoNumber.blank hw₄ (NoNumber.cons (by decide)))
      simp only [List.append_assoc, List.cons_append]
      rw [skipBlank_append_cons hw₁ (by decide), parseMembers, if_pos rfl, takeBody_complete hk,
        Option.bind_some, skipBlank_append_cons hw₂ (by decide), if_pos List.head?_cons,
        List.tail_cons, skipBlank_value hw₃ hv, hval, Option.bind_some,
        skipBlank_append_cons hw₄ (by decide)]
      rfl
  | @member k v ms w₁ w₂ w₃ b w₄ bs hw₁ hk hw₂ hw₃ hv hw₄ _ ih ihs =>
    rintro (_ | fuel) r hfuel
    · simp at hfuel
    · have hval := ih fuel (w₄ ++ comma :: (bs ++ rbrace :: r)) (by simp at hfuel; omega)
        (NoNumber.blank hw₄ (NoNumber.cons (by decide)))
      have hrest := ihs fuel r (by simp at hfuel; omega)
      simp only [List.append_assoc, List.cons_append]
      rw [skipBlank_append_cons hw₁ (by decide), parseMembers, if_pos rfl, takeBody_complete hk,
        Option.bind_some, skipBlank_append_cons hw₂ (by decide), if_pos List.head?_cons,
        List.tail_cons, skipBlank_value hw₃ hv, hval, Option.bind_some,
        skipBlank_append_cons hw₄ (by decide)]
      dsimp only
      rw [if_pos rfl, hrest]
      rfl

/-! ### Documents -/

/-- **The parser decides the grammar**: it accepts exactly the documents, and returns
the value a document is for. -/
theorem parse_eq_some_iff {b : Bytes} {v : Value} : parse b = some v ↔ RendersDoc v b := by
  constructor
  · intro h
    rw [parse, Option.bind_eq_some_iff] at h
    obtain ⟨⟨v', r⟩, hv, h⟩ := h
    dsimp only at h
    split at h
    · next hr =>
      obtain rfl : v' = v := by simpa using h
      obtain ⟨t, ht, hskip⟩ := (parse_sound _).1 _ _ _ hv
      obtain ⟨w, hw, hb⟩ := exists_skipBlank b
      obtain ⟨w', hw', hr'⟩ := exists_skipBlank r
      rw [hr, List.append_nil] at hr'
      exact ⟨w, t, w', hw, ht, hw', by rw [hb, hskip, hr', List.append_assoc]⟩
    · simp at h
  · rintro ⟨w₁, t, w₂, hw₁, ht, hw₂, rfl⟩
    obtain ⟨c, t', rfl, hc⟩ := ht.value_head
    have hskip : skipBlank (w₁ ++ c :: t' ++ w₂) = c :: t' ++ w₂ := by
      rw [List.append_assoc, skipBlank_append hw₁, List.cons_append,
        skipBlank_cons (startsValue_not_blank hc)]
    have hend : NoNumber w₂ := by simpa using NoNumber.blank (r := []) hw₂ (by simp [NoNumber])
    have hval := ht.parses (2 * (w₁ ++ c :: t' ++ w₂).length) w₂ (by simp; omega) hend
    rw [parse, hskip, hval, Option.bind_some]
    simp [skipBlank_eq_nil hw₂]

theorem Renders.parse {v : Value} {b : Bytes} (h : Renders (.value v) b) :
    Json.parse b = some v :=
  parse_eq_some_iff.mpr ⟨[], b, [], .nil, h, .nil, by simp⟩

end Json
