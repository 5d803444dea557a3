import WasmRecorder.Lib.Json.Unmarshal

/-!
# Slash-separated paths

Lexical path handling as Go's `path` and `io/fs` packages document it, on byte strings.

* `validPath` — the paths a file system accepts: valid UTF-8, unrooted, and made of proper
  names only.
* `Under d p` — the clean path `p` is `d` or lies below it.

The result the rest rests on is `clean_append_under`: behind a directory and a separator, a
path without `..` leads to the directory or below it, whatever else it contains.
-/

namespace Path

abbrev Bytes := List UInt8

abbrev slash : UInt8 := 0x2f
abbrev dot : Bytes := [0x2e]
abbrev dotdot : Bytes := [0x2e, 0x2e]

/-! ### Components -/

def components (p : Bytes) : List Bytes := p.splitOn slash

def join (cs : List Bytes) : Bytes := [slash].intercalate cs

theorem components_append (p q : Bytes) :
    components (p ++ slash :: q) = components p ++ components q :=
  List.splitOn_append_cons_self ..

theorem slash_notMem_of_mem_components {p c : Bytes} (hc : c ∈ components p) : slash ∉ c := by
  induction p generalizing c with
  | nil =>
    obtain rfl : c = [] := by simpa [components] using hc
    exact List.not_mem_nil
  | cons b p ih =>
    rw [components, List.splitOn_cons_eq_if_modifyHead] at hc
    by_cases hb : (b == slash) = true
    · rw [if_pos hb] at hc
      rcases List.mem_cons.mp hc with rfl | hc
      · exact List.not_mem_nil
      · exact ih hc
    · rw [if_neg hb] at hc
      -- `b` joins the first component, which the rest of the path already has
      cases hp : p.splitOn slash with
      | nil => exact absurd hp (List.splitOn_ne_nil slash p)
      | cons x xs =>
        rw [hp, List.modifyHead_cons] at hc
        rcases List.mem_cons.mp hc with rfl | hc
        · have hx : slash ∉ x := ih (by rw [components, hp]; exact List.mem_cons_self)
          rintro hmem
          rcases List.mem_cons.mp hmem with rfl | hmem
          · exact hb (beq_self_eq_true slash)
          · exact hx hmem
        · exact ih (by rw [components, hp]; exact List.mem_cons_of_mem x hc)

variable {cs : List Bytes}

theorem components_join (hne : cs ≠ []) (hcs : ∀ c ∈ cs, slash ∉ c) : components (join cs) = cs :=
  List.splitOn_intercalate slash hcs hne

theorem join_append {ds : List Bytes} (hc : cs ≠ []) (hd : ds ≠ []) :
    join (cs ++ ds) = join cs ++ slash :: join ds := by
  induction cs with
  | nil => exact absurd rfl hc
  | cons c cs ih =>
    cases cs with
    | nil =>
      cases ds with
      | nil => exact absurd rfl hd
      | cons d ds =>
        change [slash].intercalate (c :: d :: ds) = _
        rw [List.intercalate_cons_cons]
        simp [join]
    | cons c' cs =>
      change [slash].intercalate (c :: c' :: (cs ++ ds)) =
        [slash].intercalate (c :: c' :: cs) ++ _
      rw [List.intercalate_cons_cons, List.intercalate_cons_cons]
      have htail := ih (List.cons_ne_nil c' cs)
      simp only [join, List.cons_append] at htail
      rw [htail]
      simp [join]

/-! ### Cleaning -/

/-- A path that starts at the root. -/
def isRooted (p : Bytes) : Bool := p.head? = some slash

/-- One component more, in front of which the components `out` are kept, the last one
first. -/
def push (rooted : Bool) (out : List Bytes) (c : Bytes) : List Bytes :=
  if c = [] ∨ c = dot then out
  else if c = dotdot then
    match out with
    | [] => if rooted then [] else [dotdot]
    | d :: ds => if d = dotdot then dotdot :: d :: ds else ds
  else c :: out

/-- The components that stay. -/
def reduce (rooted : Bool) (cs : List Bytes) : List Bytes := (cs.foldl (push rooted) []).reverse

/-- Write components as a path. -/
def render (rooted : Bool) (cs : List Bytes) : Bytes :=
  if rooted then slash :: join cs else if cs = [] then dot else join cs

/-- `path.Clean`, which on POSIX is also `filepath.Clean`. -/
def clean (p : Bytes) : Bytes := render (isRooted p) (reduce (isRooted p) (components p))

/-- A component that names something: not empty, and neither the directory itself nor its
parent. -/
def Plain (c : Bytes) : Prop := c ≠ [] ∧ c ≠ dot ∧ c ≠ dotdot

instance (c : Bytes) : Decidable (Plain c) := inferInstanceAs (Decidable (_ ∧ _ ∧ _))

/-- The components a path without `..` adds. -/
def proper (cs : List Bytes) : List Bytes := cs.filter fun c => ¬ (c = [] ∨ c = dot)

theorem push_blank (rooted : Bool) (out : List Bytes) {c : Bytes} (hc : c = [] ∨ c = dot) :
    push rooted out c = out := if_pos hc

theorem push_name (rooted : Bool) (out : List Bytes) {c : Bytes} (hc : ¬ (c = [] ∨ c = dot))
    (hdd : c ≠ dotdot) : push rooted out c = c :: out := by
  unfold push
  rw [if_neg hc, if_neg hdd]

theorem foldl_push_of_notMem {rooted : Bool} (hcs : dotdot ∉ cs) (out : List Bytes) :
    cs.foldl (push rooted) out = (proper cs).reverse ++ out := by
  induction cs generalizing out with
  | nil => rfl
  | cons c cs ih =>
    rw [List.mem_cons, not_or] at hcs
    rw [List.foldl_cons, ih hcs.2, proper, proper]
    by_cases hc : c = [] ∨ c = dot
    · rw [push_blank rooted out hc, List.filter_cons_of_neg (by simp [hc])]
    · rw [push_name rooted out hc (Ne.symm hcs.1), List.filter_cons_of_pos (by simp [hc])]
      simp

theorem reduce_append {rooted : Bool} {ds : List Bytes} (hds : dotdot ∉ ds) :
    reduce rooted (cs ++ ds) = reduce rooted cs ++ proper ds := by
  rw [reduce, List.foldl_append, foldl_push_of_notMem hds, List.reverse_append,
    List.reverse_reverse]
  rfl

theorem mem_of_mem_reduce {rooted : Bool} {c : Bytes} (hc : c ∈ reduce rooted cs) :
    c ∈ cs ∧ c ≠ [] ∧ c ≠ dot := by
  have hfold : ∀ (cs out : List Bytes), c ∈ cs.foldl (push rooted) out →
      c ∈ out ∨ (c ∈ cs ∧ c ≠ [] ∧ c ≠ dot) := by
    intro cs
    induction cs with
    | nil => exact fun out h => Or.inl h
    | cons d cs ih =>
      intro out h
      rcases ih _ h with h | ⟨h, hne⟩
      · -- the components kept after `d`
        have hpush : c ∈ out ∨ (c = d ∧ d ≠ [] ∧ d ≠ dot) := by
          unfold push at h
          split at h
          · exact Or.inl h
          · next hd =>
            push Not at hd
            split at h
            · next hdd =>
              split at h
              · split at h
                · exact Or.inl h
                · rw [hdd]
                  exact Or.inr ⟨List.mem_singleton.mp h, by decide, by decide⟩
              · split at h
                · rcases List.mem_cons.mp h with rfl | h
                  · exact Or.inr ⟨hdd.symm, hd⟩
                  · exact Or.inl h
                · exact Or.inl (List.mem_cons_of_mem _ h)
            · rcases List.mem_cons.mp h with rfl | h
              · exact Or.inr ⟨rfl, hd⟩
              · exact Or.inl h
        rcases hpush with h | ⟨rfl, hne⟩
        · exact Or.inl h
        · exact Or.inr ⟨List.mem_cons_self, hne⟩
      · exact Or.inr ⟨List.mem_cons_of_mem d h, hne⟩
  rcases hfold cs [] (List.mem_reverse.mp hc) with h | h
  · exact absurd h List.not_mem_nil
  · exact h

/-! ### Staying below a directory -/

/-- The clean path `p` is the clean path `d`, or names something below it. -/
def Under (d p : Bytes) : Prop :=
  p = d ∨ ∃ rest, (∀ c ∈ components rest, Plain c) ∧
    p = if d = dot then rest else if d = [slash] then slash :: rest else d ++ slash :: rest

theorem render_append_under {rooted : Bool} {rest : List Bytes}
    (hcs : ∀ c ∈ cs, slash ∉ c ∧ c ≠ [] ∧ c ≠ dot) (hrest : ∀ c ∈ rest, slash ∉ c ∧ Plain c) :
    Under (render rooted cs) (render rooted (cs ++ rest)) := by
  rcases eq_or_ne rest [] with rfl | hne
  · rw [List.append_nil]
    exact Or.inl rfl
  have hplain : ∀ c ∈ components (join rest), Plain c := by
    rw [components_join hne fun c hc => (hrest c hc).1]
    exact fun c hc => (hrest c hc).2
  refine Or.inr ⟨join rest, hplain, ?_⟩
  rcases eq_or_ne cs [] with rfl | hcne
  · cases rooted with
    | true => rfl
    | false => rw [List.nil_append, render, if_neg (by decide), if_neg hne]; rfl
  -- a kept component is left in the directory's path, so it is neither `.` nor the root
  have hcomp : components (join cs) = cs := components_join hcne fun c hc => (hcs c hc).1
  have hdot : join cs ≠ dot := by
    intro h
    rw [h] at hcomp
    exact (hcs dot (by rw [← hcomp]; decide)).2.2 rfl
  have hslash : join cs ≠ [slash] := by
    intro h
    rw [h] at hcomp
    exact (hcs [] (by rw [← hcomp]; decide)).2.1 rfl
  have hnil : join cs ≠ [] := by
    intro h
    rw [h] at hcomp
    exact (hcs [] (by rw [← hcomp]; decide)).2.1 rfl
  cases rooted with
  | true =>
    change slash :: join (cs ++ rest) = if slash :: join cs = dot then _ else _
    rw [if_neg (by intro h; exact absurd (List.cons.inj h).1 (by decide)),
      if_neg (by intro h; exact hnil (List.cons.inj h).2), join_append hcne hne]
    rfl
  | false =>
    have hd : render false cs = join cs := if_neg hcne
    have hp : render false (cs ++ rest) = join (cs ++ rest) :=
      if_neg fun h => hcne (List.append_eq_nil_iff.mp h).1
    rw [hd, hp, if_neg hdot, if_neg hslash, join_append hcne hne]

/-- The directory `d` and its text `d'` without the trailing separator it may have. -/
def Trimmed (d d' : Bytes) : Prop := d = d' ++ [slash] ∨ (d = d' ∧ d ≠ [])

theorem Trimmed.isRooted {d d' : Bytes} (h : Trimmed d d') (p : Bytes) :
    isRooted (d' ++ slash :: p) = Path.isRooted d := by
  rcases h with rfl | ⟨rfl, hne⟩
  · cases d' <;> rfl
  · cases d with
    | nil => exact absurd rfl hne
    | cons c d => rfl

theorem Trimmed.reduce {d d' : Bytes} (h : Trimmed d d') (rooted : Bool) :
    reduce rooted (components d) = Path.reduce rooted (components d') := by
  rcases h with rfl | ⟨rfl, -⟩
  · rw [components_append, reduce_append (by decide)]
    exact List.append_nil _
  · rfl

/-- **Behind a directory, a path without `..` stays below the directory.** -/
theorem clean_append_under {d d' p : Bytes} (h : Trimmed d d') (hp : dotdot ∉ components p) :
    Under (clean d) (clean (d' ++ slash :: p)) := by
  rw [clean, clean, h.isRooted, h.reduce, components_append, reduce_append hp]
  refine render_append_under ?_ ?_
  · intro c hc
    obtain ⟨hmem, hne⟩ := mem_of_mem_reduce hc
    exact ⟨slash_notMem_of_mem_components hmem, hne⟩
  · intro c hc
    obtain ⟨hmem, hne⟩ := List.mem_filter.mp hc
    simp only [not_or, decide_eq_true_eq] at hne
    exact ⟨slash_notMem_of_mem_components hmem, hne.1, hne.2, fun h => hp (h ▸ hmem)⟩

/-- Without its trailing separator a directory is the same directory, unless it is the
root. -/
theorem clean_trimmed {d d' : Bytes} (h : Trimmed d d') (hne : d' ≠ []) : clean d' = clean d := by
  have hroot : isRooted d' = isRooted d := by
    rcases h with rfl | ⟨rfl, -⟩
    · cases d' with
      | nil => exact absurd rfl hne
      | cons c d' => rfl
    · rfl
  rw [clean, clean, hroot, h.reduce]

/-! ### Valid paths -/

/-- `utf8.Valid`: every rune decodes. The number is of bytes to skip, the rest of a rune
that was decoded. -/
def utf8Valid : Nat → Bytes → Bool
  | _, [] => true
  | skip + 1, _ :: b => utf8Valid skip b
  | 0, c :: b =>
    let (r, width) := Json.decodeRune (c :: b)
    (r ≠ Json.replacement ∨ width ≠ 1) ∧ utf8Valid (width - 1) b

/-- `fs.ValidPath`. -/
def validPath (p : Bytes) : Bool :=
  utf8Valid 0 p ∧ (p = dot ∨ ∀ c ∈ components p, Plain c)

theorem dotdot_notMem_of_validPath {p : Bytes} (h : validPath p = true) :
    dotdot ∉ components p := by
  simp only [validPath, decide_eq_true_eq] at h
  rcases h.2 with rfl | h
  · decide
  · exact fun hmem => (h dotdot hmem).2.2 rfl

end Path
