import WasmRecorder.Boundarylog.Recording

/-!
# The language of binding names

`parseBindingName` is documented to take `label:arg<digits>` and `label:ret<digits>` and
nothing else. The digits are read by `strconv.Atoi`, whose own grammar has a sign in front
of them, so the reader takes a little more than it says.

* `Spells b name` — the documented grammar: label, colon, role and digits, with the number
  in the range of an `int`.
* `Signed name` — the names with a sign between the role and the digits that the integer
  reader lets through: a plus, or a minus in front of zero.
* `parseBindingName_eq_some_iff` — what the reader takes, in terms of `strconv.Atoi`.
* `binding_names_exact` — the reader has the documented language, and every name of a
  binding is its canonical one but for leading zeros, at every name that is not signed and
  at no other.
-/

namespace Boundarylog

/-- The documented spellings of a binding. -/
def Spells (b : Binding) (name : Text) : Prop :=
  b.label ≠ [] ∧ b.slot < 2 ^ 63 ∧ ∃ digits, Strconv.numeral digits = some b.slot ∧
    name = b.label ++ ':' :: (b.role.string ++ digits)

/-- The names with a sign behind the role that `strconv.Atoi` reads over. -/
def Signed (name : Text) : Prop :=
  ∃ (label : Text) (role : Role) (sign : Char) (digits : Text) (n : Nat), label ≠ [] ∧
    Strconv.numeral digits = some n ∧ n < 2 ^ 63 ∧ (sign = '+' ∨ sign = '-' ∧ n = 0) ∧
    name = label ++ ':' :: (role.string ++ sign :: digits)

/-! ### The two cuts -/

theorem notMem_of_cutLast_eq_none {c : Char} {s : Text} (h : cutLast c s = none) : c ∉ s := by
  induction s with
  | nil => exact List.not_mem_nil
  | cons x xs ih =>
    rw [cutLast] at h
    cases hxs : cutLast c xs with
    | some p => rw [hxs] at h; cases h
    | none =>
      rw [hxs] at h
      rintro (_ | ⟨_, hmem⟩)
      · rw [if_pos rfl] at h; cases h
      · exact ih hxs hmem

theorem cutLast_eq_some_iff {c : Char} {s before after : Text} :
    cutLast c s = some (before, after) ↔ s = before ++ c :: after ∧ c ∉ after := by
  constructor
  · intro h
    induction s generalizing before with
    | nil => cases h
    | cons x xs ih =>
      rw [cutLast] at h
      cases hxs : cutLast c xs with
      | some p =>
        rw [hxs] at h
        cases h
        exact ⟨congrArg _ (ih hxs).1, (ih hxs).2⟩
      | none =>
        -- no separator further on, so the one here is the last
        rw [hxs] at h
        by_cases hx : x = c
        · rw [if_pos hx] at h
          cases h
          exact ⟨by rw [hx]; rfl, notMem_of_cutLast_eq_none hxs⟩
        · rw [if_neg hx] at h
          cases h
  · rintro ⟨rfl, hafter⟩
    exact cutLast_append before hafter

theorem cutRole_eq_some_iff {suffix digits : Text} {role : Role} :
    cutRole suffix = some (role, digits) ↔ suffix = role.string ++ digits := by
  constructor
  · intro h
    unfold cutRole at h
    split at h <;> cases h <;> rfl
  · rintro rfl
    cases role <;> rfl

/-! ### The numbers the reader takes -/

theorem atoi_eq_natCast_iff {s : Text} {n : Nat} :
    Strconv.atoi s = some (n : Int) ↔ n < 2 ^ 63 ∧ (Strconv.numeral s = some n ∨
      ∃ sign ds, s = sign :: ds ∧ Strconv.numeral ds = some n ∧
        (sign = '+' ∨ sign = '-' ∧ n = 0)) := by
  rw [Strconv.atoi, Strconv.parseInt_eq_natCast_iff (by decide),
    Strconv.integerOf_eq_natCast_iff, and_comm]

/-- A text that reads as a number has no colon in it. -/
theorem colon_notMem_of_atoi {s : Text} {n : Nat} (h : Strconv.atoi s = some (n : Int)) :
    ':' ∉ s := by
  have hdigits : ∀ ds, Strconv.numeral ds = some n → ':' ∉ ds := by
    intro ds hds hmem
    have hall := (Strconv.numeral_eq_some_iff.mp hds).2.1
    exact absurd (List.all_eq_true.mp hall ':' hmem) (by decide)
  obtain ⟨-, hs | ⟨sign, ds, rfl, hds, hsign⟩⟩ := atoi_eq_natCast_iff.mp h
  · exact hdigits s hs
  · rintro (_ | ⟨_, hmem⟩)
    · rcases hsign with h | ⟨h, -⟩ <;> cases h
    · exact hdigits ds hds hmem

theorem parseBindingName_eq_some_iff {name : Text} {b : Binding} :
    parseBindingName name = some b ↔ b.label ≠ [] ∧ ∃ digits,
      Strconv.atoi digits = some (b.slot : Int) ∧
        name = b.label ++ ':' :: (b.role.string ++ digits) := by
  constructor
  · intro h
    unfold parseBindingName at h
    split at h
    · cases h
    next label suffix hcut =>
      split at h
      · cases h
      next role digits hrole =>
        obtain ⟨rfl, -⟩ := cutLast_eq_some_iff.mp hcut
        rw [cutRole_eq_some_iff] at hrole
        subst hrole
        split at h
        · cases h
        split at h
        · cases h
        next n hn =>
          split at h
          · cases h
          next hok =>
            cases h
            rw [not_or, Int.not_lt] at hok
            exact ⟨hok.2, digits, by rw [hn, Int.toNat_of_nonneg hok.1], rfl⟩
  · rintro ⟨hlabel, digits, hn, rfl⟩
    -- the colon found is the one in front of the role: none follows it
    have hcolon : ':' ∉ b.role.string ++ digits := by
      rw [List.mem_append, not_or]
      exact ⟨by cases b.role <;> decide, colon_notMem_of_atoi hn⟩
    have hne : digits ≠ [] := by
      rintro rfl
      cases hn
    have hok : ¬ ((b.slot : Int) < 0 ∨ b.label = []) := by
      rintro (h | h)
      · omega
      · exact hlabel h
    rw [parseBindingName, cutLast_append _ hcolon]
    simp only [cutRole_eq_some_iff.mpr rfl, if_neg hne, hn, if_neg hok, Int.toNat_natCast]

/-- A documented spelling is the canonical one but for leading zeros. -/
theorem spells_iff_zeros {b : Binding} {name : Text} :
    Spells b name ↔ b.label ≠ [] ∧ b.slot < 2 ^ 63 ∧ ∃ zeros, name =
      b.label ++ ':' :: (b.role.string ++
        (List.replicate zeros '0' ++ Strconv.formatUint b.slot)) := by
  refine and_congr_right fun _ => and_congr_right fun _ => ⟨?_, ?_⟩
  · rintro ⟨digits, hdigits, rfl⟩
    obtain ⟨zeros, rfl⟩ := Strconv.eq_zeros_of_numeral hdigits
    exact ⟨zeros, rfl⟩
  · rintro ⟨zeros, rfl⟩
    exact ⟨_, Strconv.numeral_zeros_append zeros b.slot, rfl⟩

theorem parseBindingName_of_spells {b : Binding} {name : Text} (h : Spells b name) :
    parseBindingName name = some b := by
  obtain ⟨hlabel, hslot, digits, hdigits, rfl⟩ := h
  exact parseBindingName_eq_some_iff.mpr
    ⟨hlabel, digits, atoi_eq_natCast_iff.mpr ⟨hslot, .inl hdigits⟩, rfl⟩

/-- What the reader takes is spelled as documented, or signed. -/
theorem spells_or_signed {b : Binding} {name : Text} (h : parseBindingName name = some b) :
    Spells b name ∨ Signed name := by
  obtain ⟨hlabel, digits, hn, rfl⟩ := parseBindingName_eq_some_iff.mp h
  obtain ⟨hslot, hdigits | ⟨sign, ds, rfl, hds, hsign⟩⟩ := atoi_eq_natCast_iff.mp hn
  · exact .inl ⟨hlabel, hslot, digits, hdigits, rfl⟩
  · exact .inr ⟨b.label, b.role, sign, ds, b.slot, hlabel, hds, hslot, hsign, rfl⟩

/-- A signed name is read, and not as one of its binding's documented spellings. -/
theorem Signed.read {name : Text} (h : Signed name) :
    ∃ b, parseBindingName name = some b ∧ ¬ Spells b name := by
  obtain ⟨label, role, sign, ds, n, hlabel, hds, hn, hsign, rfl⟩ := h
  refine ⟨⟨label, role, n⟩, parseBindingName_eq_some_iff.mpr ⟨hlabel, sign :: ds,
    atoi_eq_natCast_iff.mpr ⟨hn, .inr ⟨sign, ds, rfl, hds, hsign⟩⟩, rfl⟩, ?_⟩
  rintro ⟨-, -, digits, hdigits, hname⟩
  -- both texts behind the role are the same, and a sign is no digit
  have hsame : sign :: ds = digits :=
    List.append_cancel_left (List.cons.inj (List.append_cancel_left hname)).2
  have hsigned : Strconv.isSigned (sign :: ds) = true := by
    rcases hsign with rfl | ⟨rfl, -⟩ <;> rfl
  rw [← hsame, Strconv.numeral_of_isSigned hsigned] at hdigits
  cases hdigits

/-- The reader takes a name exactly in its documented spelling, which is the canonical one
but for leading zeros, unless a sign stands behind the role that `strconv.Atoi` reads
over. -/
theorem binding_names_exact (name : Text) :
    (∀ b, (parseBindingName name = some b ↔ Spells b name) ∧
      (parseBindingName name = some b ↔ b.label ≠ [] ∧ b.slot < 2 ^ 63 ∧ ∃ zeros, name =
        b.label ++ ':' :: (b.role.string ++
          (List.replicate zeros '0' ++ Strconv.formatUint b.slot)))) ↔
      ¬ Signed name := by
  constructor
  · intro hexact hsigned
    obtain ⟨b, hread, hnot⟩ := hsigned.read
    exact hnot ((hexact b).1.mp hread)
  · intro hsigned b
    have hspells : parseBindingName name = some b ↔ Spells b name :=
      ⟨fun h => (spells_or_signed h).resolve_right hsigned, parseBindingName_of_spells⟩
    exact ⟨hspells, hspells.trans spells_iff_zeros⟩

/-- `f:arg+5` is read as slot 5, and is not a documented spelling of it. -/
theorem not_binding_names_exact_plus :
    parseBindingName "f:arg+5".toList = some ⟨"f".toList, .arg, 5⟩ ∧
      ¬ Spells ⟨"f".toList, .arg, 5⟩ "f:arg+5".toList ∧
      parseBindingName (bindingName "f".toList .arg 5) = some ⟨"f".toList, .arg, 5⟩ ∧
      ∀ zeros, "f:arg+5".toList ≠ "f".toList ++ ':' ::
        ("arg".toList ++ (List.replicate zeros '0' ++ Strconv.formatUint 5)) := by
  have hnot : ¬ Spells ⟨"f".toList, .arg, 5⟩ "f:arg+5".toList := by
    rintro ⟨-, -, digits, hdigits, hname⟩
    have hsame : "+5".toList = digits :=
      @List.append_cancel_left _ "f:arg".toList "+5".toList digits hname
    subst hsame
    exact absurd hdigits (by decide)
  exact ⟨by decide, hnot, by decide, fun zeros h =>
    hnot (spells_iff_zeros.mpr ⟨by decide, by decide, zeros, h⟩)⟩

end Boundarylog
