import WasmRecorder.Boundarylog.Assembler

/-!
# The invariant of the assembler

What holds of an assembler after any records, and what later records cannot change.

* `Assembler.push_evolves`, `Assembler.finish_evolves` — every step keeps the first and
  produces the second; `feed_evolves` is the run form.
* `Assembler.push_structure` — the same for a reader of the assembler, without labels and runs.
-/

namespace Boundarylog

open Fallible

namespace Assembler

/-! ### Statement -/

/-- A label is the one the assembler gives an open crossing. -/
def Labels (label : Text) (c : Crossing) : Prop :=
  match c.kind with
  | .export => label = c.name
  | .import => parseImportLabel label = some c.index

/-- The stack against the crossings, from the innermost open crossing outwards. -/
def StackOK (cs : List Crossing) : List OpenCrossing → Prop
  | [] => True
  | o :: rest =>
    (∃ c, cs[o.idx]? = some c ∧ c.depth = rest.length ∧ Labels o.label c) ∧
      (∀ o' ∈ rest, o'.idx < o.idx) ∧ StackOK cs rest

/-- An import left something on disk that it was recovered from, and the results a crossing
is said to have are there. -/
structure Evident (c : Crossing) : Prop where
  trace : c.kind = .import → c.markerBracketed = true ∨ c.args ≠ [] ∨ c.results ≠ []
  answered : c.hasResults = true ↔ c.results ≠ []

structure Inv (a : Assembler) : Prop where
  seq : ∀ (i : Nat) (c : Crossing), a.crossings[i]? = some c → c.seq = i
  stack : StackOK a.crossings a.stack
  groupStart_le : a.groupStart ≤ a.crossings.length
  groupStart_le_open : ∀ o ∈ a.stack, a.groupStart ≤ o.idx
  ends_increasing : (0 :: a.groupEnds).Pairwise (· < ·)
  ends_le : ∀ e ∈ a.groupEnds, e ≤ a.groupStart
  ends_last : a.groupEnds.getLast?.getD 0 = a.groupStart
  pending : ∀ run, a.pending = some run → run.values ≠ []
  evident : ∀ (i : Nat) (c : Crossing), a.crossings[i]? = some c → Evident c
  witness : a.sawImportMarker = true ↔
    ∃ (i : Nat) (c : Crossing), a.crossings[i]? = some c ∧ c.markerBracketed = true

/-- What a later assembler keeps of an earlier one. -/
structure Extends (a a' : Assembler) : Prop where
  frozen : a'.crossings.take a.groupStart = a.crossings.take a.groupStart
  ends : a.groupEnds <+: a'.groupEnds
  start : a.groupStart ≤ a'.groupStart
  keeps : ∀ (i : Nat) (c : Crossing), a.crossings[i]? = some c →
    ∃ c' : Crossing, a'.crossings[i]? = some c' ∧ c'.kind = c.kind ∧ c'.depth = c.depth ∧
      c'.name = c.name

theorem Extends.refl (a : Assembler) : Extends a a :=
  ⟨rfl, List.prefix_refl _, le_refl _, fun _ c h => ⟨c, h, rfl, rfl, rfl⟩⟩

variable {a : Assembler}

theorem Extends.trans {b c : Assembler} (hab : Extends a b) (hbc : Extends b c) : Extends a c where
  frozen := by
    have h := congrArg (List.take a.groupStart) hbc.frozen
    rw [List.take_take, List.take_take, min_eq_left hab.start] at h
    exact h.trans hab.frozen
  ends := hab.ends.trans hbc.ends
  start := hab.start.trans hbc.start
  keeps := by
    intro i x hx
    obtain ⟨y, hy, hkind, hdepth, hname⟩ := hab.keeps i x hx
    obtain ⟨z, hz, hkind', hdepth', hname'⟩ := hbc.keeps i y hy
    exact ⟨z, hz, hkind'.trans hkind, hdepth'.trans hdepth, hname'.trans hname⟩

/-- The later assembler is well formed and extends the earlier one. -/
structure Evolves (a a' : Assembler) : Prop where
  inv : Inv a'
  ext : Extends a a'

theorem Evolves.refl (h : Inv a) : Evolves a a := ⟨h, Extends.refl a⟩

theorem Evolves.trans {b c : Assembler} (hab : Evolves a b) (hbc : Evolves b c) : Evolves a c :=
  ⟨hbc.inv, hab.ext.trans hbc.ext⟩

theorem inv_empty : Inv {} where
  seq := by intro i c h; simp at h
  stack := trivial
  groupStart_le := le_refl _
  groupStart_le_open := by intro o h; cases h
  ends_increasing := List.pairwise_singleton _ _
  ends_le := by intro e h; cases h
  ends_last := rfl
  pending := by intro run h; cases h
  evident := by intro i c h; simp at h
  witness := by simp

/-! ### The stack -/

variable {cs : List Crossing}

theorem StackOK.of_suffix {s t : List OpenCrossing} (hst : s <:+ t) (h : StackOK cs t) :
    StackOK cs s := by
  induction t with
  | nil => rw [List.suffix_nil.mp hst]; trivial
  | cons o rest ih =>
    rcases List.suffix_cons_iff.mp hst with rfl | hsuf
    · exact h
    · exact ih hsuf h.2.2

variable {stack : List OpenCrossing}

theorem StackOK.mono {cs' : List Crossing}
    (hkeep : ∀ o ∈ stack, ∀ c, cs[o.idx]? = some c →
      ∃ c', cs'[o.idx]? = some c' ∧ c'.depth = c.depth ∧ (Labels o.label c → Labels o.label c'))
    (h : StackOK cs stack) : StackOK cs' stack := by
  induction stack with
  | nil => trivial
  | cons o rest ih =>
    obtain ⟨⟨c, hc, hdepth, hlabel⟩, hlt, hrest⟩ := h
    obtain ⟨c', hc', hdepth', hlabel'⟩ := hkeep o List.mem_cons_self c hc
    refine ⟨⟨c', hc', hdepth'.trans hdepth, hlabel' hlabel⟩, hlt, ?_⟩
    exact ih (fun o' ho' => hkeep o' (List.mem_cons_of_mem _ ho')) hrest

theorem StackOK.idx_lt (h : StackOK cs stack) : ∀ o ∈ stack, o.idx < cs.length := by
  induction stack with
  | nil => intro o ho; cases ho
  | cons o rest ih =>
    obtain ⟨⟨c, hc, -⟩, -, hrest⟩ := h
    intro o' ho'
    rcases List.mem_cons.mp ho' with rfl | ho'
    · exact (List.getElem?_eq_some_iff.mp hc).1
    · exact ih hrest o' ho'

theorem closeDangling_suffix (cs : List Crossing) (keep : Text) (force : Bool)
    (stack : List OpenCrossing) : closeDangling cs keep force stack <:+ stack := by
  induction stack with
  | nil => exact List.suffix_refl _
  | cons o rest ih =>
    rw [closeDangling]
    split
    · exact List.suffix_refl _
    · split_ifs
      · exact List.suffix_refl _
      · exact List.suffix_refl _
      · exact List.suffix_refl _
      · exact ih.trans (List.suffix_cons o rest)

theorem top_eq_some {o : OpenCrossing} {c : Crossing} (h : a.top = some (o, c)) :
    ∃ rest, a.stack = o :: rest ∧ a.crossings[o.idx]? = some c := by
  rw [top] at h
  split at h
  · cases h
  · next o' rest hs =>
    rw [Option.map_eq_some_iff] at h
    obtain ⟨c', hc', hpair⟩ := h
    cases hpair
    exact ⟨rest, hs, hc'⟩

/-! ### Primitive updates -/

variable {a' : Assembler}

theorem Inv.congr (h : Inv a) (hcs : a'.crossings = a.crossings) (hstack : a'.stack = a.stack)
    (hstart : a'.groupStart = a.groupStart) (hends : a'.groupEnds = a.groupEnds)
    (hsaw : a'.sawImportMarker = a.sawImportMarker)
    (hpending : ∀ run, a'.pending = some run → run.values ≠ []) : Evolves a a' := by
  constructor
  · constructor
    · rw [hcs]; exact h.seq
    · rw [hcs, hstack]; exact h.stack
    · rw [hcs, hstart]; exact h.groupStart_le
    · rw [hstack, hstart]; exact h.groupStart_le_open
    · rw [hends]; exact h.ends_increasing
    · rw [hends, hstart]; exact h.ends_le
    · rw [hends, hstart]; exact h.ends_last
    · exact hpending
    · rw [hcs]; exact h.evident
    · rw [hsaw, hcs]; exact h.witness
  · constructor
    · rw [hcs]
    · exact hends ▸ List.prefix_refl _
    · rw [hstart]
    · rw [hcs]; exact fun i c hc => ⟨c, hc, rfl, rfl, rfl⟩

theorem Inv.shrink (h : Inv a) (hsuf : stack <:+ a.stack) (ha' : a' = { a with stack := stack }) :
    Evolves a a' := by
  subst ha'
  constructor
  · exact {
      seq := h.seq
      stack := h.stack.of_suffix hsuf
      groupStart_le := h.groupStart_le
      groupStart_le_open := fun o ho => h.groupStart_le_open o (hsuf.subset ho)
      ends_increasing := h.ends_increasing
      ends_le := h.ends_le
      ends_last := h.ends_last
      pending := h.pending
      evident := h.evident
      witness := h.witness }
  · exact ⟨rfl, List.prefix_refl _, le_refl _, fun _ c hc => ⟨c, hc, rfl, rfl, rfl⟩⟩

theorem Inv.pop (h : Inv a) : Evolves a a.pop :=
  h.shrink (List.tail_suffix a.stack) rfl

theorem Inv.closeDanglingImports (h : Inv a) (keep : Text) (force : Bool) :
    Evolves a (a.closeDanglingImports keep force) :=
  h.shrink (closeDangling_suffix _ _ _ _) rfl

private theorem getElem?_concat {c x : Crossing} {i : Nat} (h : (cs ++ [c])[i]? = some x) :
    cs[i]? = some x ∨ (i = cs.length ∧ x = c) := by
  rw [List.getElem?_append] at h
  split at h
  · exact .inl h
  · next hlt =>
    right
    have hi := (List.getElem?_eq_some_iff.mp h).1
    simp only [List.length_singleton] at hi
    have hzero : i - cs.length = 0 := by omega
    rw [hzero] at h
    simp only [List.getElem?_cons_zero, Option.some.injEq] at h
    exact ⟨by omega, h.symm⟩

private theorem getElem?_of_concat {x : Crossing} {i : Nat} (c : Crossing) (h : cs[i]? = some x) :
    (cs ++ [c])[i]? = some x := by
  rw [List.getElem?_append_left (List.getElem?_eq_some_iff.mp h).1, h]

private theorem Inv.grow (h : Inv a) {c : Crossing} {w : Bool}
    (ha' : a' = { a with
      crossings := a.crossings ++ [c], stack := stack, sawImportMarker := w })
    (hseq : c.seq = a.crossings.length) (hevident : Evident c)
    (hstack : StackOK (a.crossings ++ [c]) stack) (hopen : ∀ o ∈ stack, a.groupStart ≤ o.idx)
    (hsaw : w = true ↔ c.markerBracketed = true ∨ a.sawImportMarker = true) : Evolves a a' := by
  subst ha'
  constructor
  · constructor
    · intro i x hx
      rcases getElem?_concat hx with hx | ⟨rfl, rfl⟩
      · exact h.seq i x hx
      · exact hseq
    · exact hstack
    · exact h.groupStart_le.trans (by simp)
    · exact hopen
    · exact h.ends_increasing
    · exact h.ends_le
    · exact h.ends_last
    · exact h.pending
    · intro i x hx
      rcases getElem?_concat hx with hx | ⟨rfl, rfl⟩
      · exact h.evident i x hx
      · exact hevident
    · rw [hsaw, h.witness]
      constructor
      · rintro (hc | ⟨i, x, hx, hb⟩)
        · exact ⟨a.crossings.length, c, List.getElem?_concat_length, hc⟩
        · exact ⟨i, x, getElem?_of_concat c hx, hb⟩
      · rintro ⟨i, x, hx, hb⟩
        rcases getElem?_concat hx with hx | ⟨rfl, rfl⟩
        · exact .inr ⟨i, x, hx, hb⟩
        · exact .inl hb
  · refine ⟨?_, List.prefix_refl _, le_refl _, ?_⟩
    · exact List.take_append_of_le_length h.groupStart_le
    · intro i x hx
      exact ⟨x, getElem?_of_concat c hx, rfl, rfl, rfl⟩

private theorem Inv.stack_concat (h : Inv a) (c : Crossing) :
    StackOK (a.crossings ++ [c]) a.stack :=
  h.stack.mono fun _ _ x hx => ⟨x, getElem?_of_concat c hx, rfl, id⟩

theorem Inv.append (h : Inv a) {c : Crossing} (hseq : c.seq = a.crossings.length)
    (hevident : Evident c) (hmark : c.markerBracketed = false) : Evolves a (a.append c) :=
  h.grow (w := a.sawImportMarker) rfl hseq hevident (h.stack_concat c) h.groupStart_le_open
    (by simp [hmark])

theorem Inv.openNew (h : Inv a) {c : Crossing} {l : Text} {w : Bool}
    (hseq : c.seq = a.crossings.length) (hdepth : c.depth = a.stack.length) (hlabel : Labels l c)
    (hevident : Evident c) (hsaw : w = true ↔ c.markerBracketed = true ∨ a.sawImportMarker = true) :
    Evolves a { a.openNew c l with sawImportMarker := w } := by
  refine h.grow rfl hseq hevident ⟨⟨c, List.getElem?_concat_length, hdepth, hlabel⟩, ?_,
    h.stack_concat c⟩ ?_ hsaw
  · exact fun o ho => h.stack.idx_lt o ho
  · intro o ho
    rcases List.mem_cons.mp ho with rfl | ho
    · exact h.groupStart_le
    · exact h.groupStart_le_open o ho

private theorem getElem?_modify_some {f : Crossing → Crossing} {idx i : Nat} {x : Crossing}
    (h : (cs.modify idx f)[i]? = some x) :
    ∃ c, cs[i]? = some c ∧ x = if idx = i then f c else c := by
  rw [List.getElem?_modify] at h
  cases hc : cs[i]? with
  | none => rw [hc] at h; cases h
  | some c =>
    rw [hc] at h
    exact ⟨c, rfl, (Option.some.inj h).symm⟩

theorem getElem?_modify_of_some (f : Crossing → Crossing) (idx : Nat) {i : Nat} {c : Crossing}
    (h : cs[i]? = some c) : (cs.modify idx f)[i]? = some (if idx = i then f c else c) := by
  rw [List.getElem?_modify, h]
  rfl

theorem Inv.update (h : Inv a) {o : OpenCrossing} (ho : o ∈ a.stack) {f : Crossing → Crossing}
    {w : Bool} (hseq : ∀ c, (f c).seq = c.seq) (hdepth : ∀ c, (f c).depth = c.depth)
    (hkind : ∀ c, (f c).kind = c.kind) (hname : ∀ c, (f c).name = c.name)
    (hlabel : ∀ c label, Labels label c → Labels label (f c))
    (hevident : ∀ c, a.crossings[o.idx]? = some c → Evident c → Evident (f c))
    (hsaw : w = true ↔ a.sawImportMarker = true ∨
      ∃ c, a.crossings[o.idx]? = some c ∧ (f c).markerBracketed = true)
    (hkept : ∀ c, c.markerBracketed = true → (f c).markerBracketed = true) :
    Evolves a { a.update o.idx f with sawImportMarker := w } := by
  have hge := h.groupStart_le_open o ho
  constructor
  · constructor
    · intro i x hx
      obtain ⟨c, hc, rfl⟩ := getElem?_modify_some hx
      split
      · rw [hseq, h.seq i c hc]
      · exact h.seq i c hc
    · refine h.stack.mono fun o' _ c hc => ⟨_, getElem?_modify_of_some f o.idx hc, ?_, ?_⟩
      · split
        · exact hdepth c
        · rfl
      · split
        · exact hlabel c o'.label
        · exact id
    · rw [Assembler.update, List.length_modify]
      exact h.groupStart_le
    · exact h.groupStart_le_open
    · exact h.ends_increasing
    · exact h.ends_le
    · exact h.ends_last
    · exact h.pending
    · intro i x hx
      obtain ⟨c, hc, rfl⟩ := getElem?_modify_some hx
      split
      · next heq => exact hevident c (heq ▸ hc) (h.evident i c hc)
      · exact h.evident i c hc
    · rw [hsaw, h.witness]
      constructor
      · rintro (⟨i, c, hc, hb⟩ | ⟨c, hc, hb⟩)
        · refine ⟨i, _, getElem?_modify_of_some f o.idx hc, ?_⟩
          split
          · exact hkept c hb
          · exact hb
        · exact ⟨o.idx, _, getElem?_modify_of_some f o.idx hc, by rw [if_pos rfl]; exact hb⟩
      · rintro ⟨i, x, hx, hb⟩
        obtain ⟨c, hc, rfl⟩ := getElem?_modify_some hx
        split at hb
        · next heq => exact .inr ⟨c, heq ▸ hc, hb⟩
        · exact .inl ⟨i, c, hc, hb⟩
  · refine ⟨?_, List.prefix_refl _, le_refl _, ?_⟩
    · -- an open crossing lies at or after the start of the current group
      refine List.ext_getElem? fun i => ?_
      rw [Assembler.update, List.getElem?_take, List.getElem?_take]
      split
      · next hi =>
        rw [List.getElem?_modify]
        cases hc : a.crossings[i]? with
        | none => rfl
        | some c => exact congrArg some (if_neg (by omega))
      · rfl
    · intro i c hc
      refine ⟨_, getElem?_modify_of_some f o.idx hc, ?_, ?_, ?_⟩
      · split
        · exact hkind c
        · rfl
      · split
        · exact hdepth c
        · rfl
      · split
        · exact hname c
        · rfl

theorem Inv.note (h : Inv a) : Evolves a a.noteGroupBoundary := by
  rw [noteGroupBoundary]
  split
  · exact Evolves.refl h
  · next hcond =>
    push Not at hcond
    obtain ⟨hstack, -, hlt⟩ := hcond
    constructor
    · exact {
        seq := h.seq
        stack := h.stack
        groupStart_le := le_refl _
        groupStart_le_open := by rw [hstack]; intro o ho; cases ho
        ends_increasing := by
          refine List.pairwise_append.mpr ⟨h.ends_increasing, List.pairwise_singleton _ _, ?_⟩
          intro e he e' he'
          rw [List.mem_singleton.mp he']
          rcases List.mem_cons.mp he with rfl | he
          · exact lt_of_le_of_lt (Nat.zero_le _) hlt
          · exact lt_of_le_of_lt (h.ends_le e he) hlt
        ends_le := by
          intro e he
          rcases List.mem_append.mp he with he | he
          · exact (h.ends_le e he).trans hlt.le
          · rw [List.mem_singleton.mp he]
        ends_last := by rw [List.getLast?_concat]; rfl
        pending := h.pending
        evident := h.evident
        witness := h.witness }
    · exact ⟨rfl, List.prefix_append _ _, hlt.le, fun _ c hc => ⟨c, hc, rfl, rfl, rfl⟩⟩

/-! ### Runs -/

variable {run : ValueRun}

theorem Inv.applyArgs (h : Inv a) (hrun : run.values ≠ []) (hok : a.applyArgs run = .ok a') :
    Evolves a a' := by
  rw [Assembler.applyArgs] at hok
  split at hok
  · next index hindex =>
    cases hok
    exact h.openNew (w := a.sawImportMarker) rfl rfl hindex ⟨fun _ => .inr (.inl hrun), by simp⟩
      (by simp)
  · split at hok
    · cases hok
    · next o rest hstack =>
      split_ifs at hok
      cases hok
      refine h.update (w := a.sawImportMarker) (hstack ▸ List.mem_cons_self) (fun _ => rfl)
        (fun _ => rfl) (fun _ => rfl) (fun _ => rfl) (fun _ _ hl => hl)
        (fun _ _ he => ⟨fun _ => .inr (.inl hrun), he.answered⟩) ?_ (fun _ hb => hb)
      rw [h.witness]
      exact ⟨.inl, fun hw => hw.elim id fun ⟨c, hc, hb⟩ => ⟨_, c, hc, hb⟩⟩

theorem Inv.applyLoneResults (h : Inv a) (hrun : run.values ≠ [])
    (hok : a.applyLoneResults run = .ok a') : Evolves a a' := by
  rw [Assembler.applyLoneResults] at hok
  split at hok
  · cases hok
    exact h.append rfl ⟨fun _ => .inr (.inr hrun), iff_of_true rfl hrun⟩ rfl
  · cases hok

theorem Inv.applyResults (h : Inv a) (hrun : run.values ≠ []) (hok : a.applyResults run = .ok a') :
    Evolves a a' := by
  rw [Assembler.applyResults] at hok
  split at hok
  · exact h.applyLoneResults hrun hok
  · next o c htop =>
    obtain ⟨rest, hstack, -⟩ := top_eq_some htop
    split at hok
    · exact h.applyLoneResults hrun hok
    · have hup : Evolves a (a.update o.idx fun c =>
          { c with results := run.values, hasResults := true }) := by
        refine h.update (w := a.sawImportMarker) (hstack ▸ List.mem_cons_self) (fun _ => rfl)
          (fun _ => rfl) (fun _ => rfl) (fun _ => rfl) (fun _ _ hl => hl)
          (fun _ _ _ => ⟨fun _ => .inr (.inr hrun), iff_of_true rfl hrun⟩) ?_ (fun _ hb => hb)
        rw [h.witness]
        exact ⟨.inl, fun hw => hw.elim id fun ⟨c, hc, hb⟩ => ⟨_, c, hc, hb⟩⟩
      split_ifs at hok
      · cases hok
        exact hup.trans hup.inv.pop
      · cases hok
        exact hup

/-- Only the crossings and the stack differ. -/
structure Frame (a a' : Assembler) : Prop where
  functions : a'.functions = a.functions
  varNames : a'.varNames = a.varNames
  pending : a'.pending = a.pending
  hostState : a'.hostState = a.hostState

theorem applyArgs_frame (hok : a.applyArgs run = .ok a') : Frame a a' := by
  rw [Assembler.applyArgs] at hok
  split at hok
  · cases hok
    exact ⟨rfl, rfl, rfl, rfl⟩
  · split at hok
    · cases hok
    · split_ifs at hok
      cases hok
      exact ⟨rfl, rfl, rfl, rfl⟩

theorem applyLoneResults_frame (hok : a.applyLoneResults run = .ok a') : Frame a a' := by
  rw [Assembler.applyLoneResults] at hok
  split at hok
  · cases hok
    exact ⟨rfl, rfl, rfl, rfl⟩
  · cases hok

theorem applyResults_frame (hok : a.applyResults run = .ok a') : Frame a a' := by
  rw [Assembler.applyResults] at hok
  split at hok
  · exact applyLoneResults_frame hok
  · split at hok
    · exact applyLoneResults_frame hok
    · split_ifs at hok <;> (cases hok; exact ⟨rfl, rfl, rfl, rfl⟩)

theorem closeRun_frame (hok : a.closeRun = .ok a') : Frame { a with pending := none } a' := by
  rw [closeRun] at hok
  split at hok
  · next hnone =>
    cases hok
    exact ⟨rfl, rfl, hnone, rfl⟩
  · next run _ =>
    split at hok
    · obtain ⟨hf, hv, hp, hh⟩ := applyArgs_frame hok
      exact ⟨hf, hv, hp, hh⟩
    · obtain ⟨hf, hv, hp, hh⟩ := applyResults_frame hok
      exact ⟨hf, hv, hp, hh⟩

theorem closeRun_pending (hok : a.closeRun = .ok a') : a'.pending = none :=
  (closeRun_frame hok).pending

theorem note_hostState (a : Assembler) : a.noteGroupBoundary.hostState = a.hostState := by
  rw [noteGroupBoundary]
  split <;> rfl

theorem finish_hostState (hok : a.finish = .ok a') : a'.hostState = a.hostState := by
  obtain ⟨a₁, hrun, hfin⟩ := bind_eq_ok.mp hok
  dsimp only at hfin
  split_ifs at hfin
  · cases hfin
  · cases hfin
    rw [note_hostState]
    exact (closeRun_frame hrun).hostState

theorem Inv.clearPending (h : Inv a) : Evolves a { a with pending := none } :=
  h.congr rfl rfl rfl rfl rfl nofun

theorem Inv.closeRun (h : Inv a) (hok : a.closeRun = .ok a') : Evolves a a' := by
  rw [Assembler.closeRun] at hok
  split at hok
  · cases hok; exact Evolves.refl h
  · next run hrun =>
    have hclear := h.clearPending
    have hvalues := h.pending run hrun
    split at hok
    · have hdang := hclear.inv.closeDanglingImports [] false
      exact (hclear.trans hdang).trans (hdang.inv.applyArgs hvalues hok)
    · have hdang := hclear.inv.closeDanglingImports run.label false
      exact (hclear.trans hdang).trans (hdang.inv.applyResults hvalues hok)

/-! ### Records -/

theorem Inv.extendRun {name : Text} {b : Binding} {v : RawValue} (h : Inv a)
    (hok : a.extendRun name b v = .ok a') : Evolves a a' := by
  rw [Assembler.extendRun] at hok
  split_ifs at hok
  cases hok
  refine h.congr rfl rfl rfl rfl rfl fun run hrun => ?_
  cases hrun
  exact List.append_ne_nil_of_right_ne_nil _ (List.cons_ne_nil _ _)

theorem Inv.closeRunBefore {b : Binding} (h : Inv a) (hok : a.closeRunBefore b = .ok a') :
    Evolves a a' := by
  rw [Assembler.closeRunBefore] at hok
  split_ifs at hok
  · exact h.closeRun hok
  · cases hok; exact Evolves.refl h

theorem Inv.pushValue {v : ValueRecord} (h : Inv a) (hok : a.pushValue v = .ok a') :
    Evolves a a' := by
  rw [Assembler.pushValue] at hok
  split at hok
  · cases hok
  · split at hok
    · exact h.closeRun hok
    · split at hok
      · cases hok
      · obtain ⟨a₁, hrun, hext⟩ := bind_eq_ok.mp hok
        have hstep := h.closeRunBefore hrun
        exact hstep.trans (hstep.inv.extendRun hext)

theorem Inv.pushFunction {f : FunctionRecord} (h : Inv a) (hok : a.pushFunction f = .ok a') :
    Evolves a a' := by
  obtain ⟨a₁, hrun, hpure⟩ := bind_eq_ok.mp hok
  cases hpure
  have hstep := h.closeRun hrun
  exact hstep.trans (hstep.inv.congr rfl rfl rfl rfl rfl hstep.inv.pending)

theorem Inv.openExport (h : Inv a) (name : Text) :
    Evolves a (a.openNew
      { seq := a.crossings.length, depth := a.stack.length, kind := .export, name } name) :=
  h.openNew (w := a.sawImportMarker) rfl rfl rfl ⟨(fun hkind => nomatch hkind), by simp⟩ (by simp)

theorem Inv.pushCall {call : CallRecord} (h : Inv a) (hok : a.pushCall call = .ok a') :
    Evolves a a' := by
  obtain ⟨a₁, hrun, hcall⟩ := bind_eq_ok.mp hok
  have hstep := h.closeRun hrun
  split at hcall
  · cases hcall
  · cases hcall
    exact hstep.trans (hstep.inv.openExport _)

theorem Inv.openMarkedImport (h : Inv a) (index : UInt32) :
    Evolves a ({ a with sawImportMarker := true }.openMarkedImport index) := by
  have hfresh := h.openNew (l := importLabel index) (w := true)
    (c := { seq := a.crossings.length, depth := a.stack.length, kind := .import, index
            markerBracketed := true })
    rfl rfl (parseImportLabel_importLabel index) ⟨fun _ => .inl rfl, by simp⟩ (by simp)
  rw [Assembler.openMarkedImport]
  split
  · exact hfresh
  · next o c htop =>
    obtain ⟨rest, hstack, hc⟩ := top_eq_some htop
    split_ifs
    · refine h.update (w := true) (hstack ▸ List.mem_cons_self) (fun _ => rfl)
        (fun _ => rfl) (fun _ => rfl) (fun _ => rfl) (fun _ _ hl => hl)
        (fun _ _ he => ⟨fun _ => .inl rfl, he.answered⟩) ?_ (fun _ _ => rfl)
      exact ⟨fun _ => .inr ⟨c, hc, rfl⟩, fun _ => rfl⟩
    · exact hfresh

theorem Inv.closeMarkedImport {index : UInt32} (h : Inv a)
    (hok : { a with sawImportMarker := true }.closeMarkedImport index = .ok a') : Evolves a a' := by
  rw [Assembler.closeMarkedImport] at hok
  split at hok
  · cases hok
  · next o c htop =>
    obtain ⟨rest, hstack, hc⟩ := top_eq_some htop
    split_ifs at hok with hcond
    cases hok
    -- a marker that closes a bracketed crossing adds no witness: that crossing is one
    have hsaw : a.sawImportMarker = true := h.witness.mpr ⟨o.idx, c, hc, hcond.2.2⟩
    have hsame : { a with sawImportMarker := true } = a := by rw [← hsaw]
    rw [hsame]
    exact h.pop

theorem Inv.pushMarker {m : RealmMarker} (h : Inv a) (hok : a.pushMarker m = .ok a') :
    Evolves a a' := by
  rw [Assembler.pushMarker] at hok
  split at hok
  · cases hok; exact Evolves.refl h
  · split at hok
    · cases hok; exact h.openMarkedImport m.index
    · exact h.closeMarkedImport hok

theorem Inv.pushEvent {ev : Json.Value} (h : Inv a) (hok : a.pushEvent ev = .ok a') :
    Evolves a a' := by
  obtain ⟨a₁, hrun, hev⟩ := bind_eq_ok.mp hok
  have hstep := h.closeRun hrun
  split at hev
  · cases hev
  · split at hev
    · cases hev
    · cases hev
      exact hstep.trans (hstep.inv.congr rfl rfl rfl rfl rfl hstep.inv.pending)
  · split at hev
    · cases hev; exact hstep
    · exact hstep.trans (hstep.inv.pushMarker hev)

theorem Inv.pushReturn (h : Inv a) (hok : a.pushReturn = .ok a') : Evolves a a' := by
  obtain ⟨a₁, hrun, hret⟩ := bind_eq_ok.mp hok
  have hstep := h.closeRun hrun
  have hdang := hstep.trans (hstep.inv.closeDanglingImports [] false)
  dsimp only at hret
  split at hret
  · cases hret
  · split_ifs at hret
    cases hret
    exact hdang.trans hdang.inv.pop

theorem Inv.pushRecord {ev : TraceEvent} (h : Inv a) (hok : a.pushRecord ev = .ok a') :
    Evolves a a' := by
  rw [Assembler.pushRecord.eq_def] at hok
  split at hok
  · exact h.pushFunction hok
  · cases hok; exact h.congr rfl rfl rfl rfl rfl h.pending
  · exact h.pushValue hok
  · exact h.pushCall hok
  · exact h.pushEvent hok
  · exact h.pushReturn hok
  · split_ifs at hok
    · exact h.closeRun hok
    · cases hok; exact Evolves.refl h

theorem push_evolves {ev : TraceEvent} (h : Inv a) (hok : a.push ev = .ok a') : Evolves a a' := by
  obtain ⟨a₁, hrec, rfl⟩ := map_eq_ok.mp hok
  have hstep := h.pushRecord hrec
  exact hstep.trans hstep.inv.note

theorem finish_evolves (h : Inv a) (hok : a.finish = .ok a') : Evolves a a' := by
  obtain ⟨a₁, hrun, hfin⟩ := bind_eq_ok.mp hok
  have hstep := h.closeRun hrun
  have hdang := hstep.trans (hstep.inv.closeDanglingImports [] true)
  dsimp only at hfin
  split_ifs at hfin
  · cases hfin
  · cases hfin
    exact hdang.trans hdang.inv.note

/-- **The run lemma.** -/
theorem feed_evolves {events : List TraceEvent} (h : Inv a) (hok : feed push a events = .ok a') :
    Evolves a a' := by
  refine ⟨feed_preserves Inv (fun _ _ _ hi hs => (push_evolves hi hs).inv) h hok, ?_⟩
  exact feed_rel Inv Extends Extends.refl (fun _ _ _ => Extends.trans)
    (fun _ _ _ hi hs => ⟨(push_evolves hi hs).inv, (push_evolves hi hs).ext⟩) h hok

/-! ### What the readers of an assembler rely on -/

theorem StackOK.outermost_first (h : StackOK cs stack) :
    (stack.reverse.map OpenCrossing.idx).Pairwise (· < ·) ∧
      ∀ (height : Nat) (o : OpenCrossing), stack.reverse[height]? = some o →
        ∃ c, cs[o.idx]? = some c ∧ c.depth = height := by
  induction stack with
  | nil => exact ⟨List.Pairwise.nil, nofun⟩
  | cons o rest ih =>
    obtain ⟨⟨c, hc, hdepth, -⟩, hlt, hrest⟩ := h
    obtain ⟨hinc, hheight⟩ := ih hrest
    rw [List.reverse_cons]
    constructor
    · rw [List.map_append, List.pairwise_append]
      refine ⟨hinc, List.pairwise_singleton _ _, fun i hi j hj => ?_⟩
      obtain ⟨o', ho', rfl⟩ := List.mem_map.mp hi
      rw [List.mem_singleton.mp hj]
      exact hlt o' (List.mem_reverse.mp ho')
    · intro height o' ho'
      -- below the top the heights are those of the rest
      rcases Nat.lt_or_ge height rest.reverse.length with hbelow | htop
      · rw [List.getElem?_append_left hbelow] at ho'
        exact hheight height o' ho'
      · rw [List.getElem?_append_right htop, List.getElem?_singleton] at ho'
        split_ifs at ho' with hzero
        cases ho'
        rw [List.length_reverse] at hzero htop
        exact ⟨c, hc, by omega⟩

theorem Extends.getElem? (h : Extends a a') {i : Nat} (hi : i < a.groupStart) :
    a'.crossings[i]? = a.crossings[i]? := by
  have hfrozen := congrArg (fun l : List Crossing => l[i]?) h.frozen
  rwa [List.getElem?_take_of_lt hi, List.getElem?_take_of_lt hi] at hfrozen

/-- **The structure of an assembler.** After any records: a crossing's number is its position;
the open crossings stand at increasing positions, each at the height of its depth; the ends of
the completed groups increase up to the start of the one being assembled, before which no
crossing is open; and no further records touch a crossing of a completed group. -/
theorem push_structure {events : List TraceEvent} {a : Assembler}
    (h : feed push {} events = .ok a) :
    (∀ (i : Nat) (c : Crossing), a.crossings[i]? = some c → c.seq = i) ∧
      ((a.stack.reverse.map OpenCrossing.idx).Pairwise (· < ·) ∧
        ∀ (height : Nat) (o : OpenCrossing), a.stack.reverse[height]? = some o →
          ∃ c, a.crossings[o.idx]? = some c ∧ c.depth = height) ∧
      (a.groupEnds.Pairwise (· < ·) ∧ (∀ e ∈ a.groupEnds, e ≤ a.groupStart) ∧
        a.groupEnds.getLast?.getD 0 = a.groupStart) ∧
      (∀ o ∈ a.stack, a.groupStart ≤ o.idx) ∧
      ∀ (more : List TraceEvent) (a' : Assembler), feed push a more = .ok a' →
        ∀ i < a.groupStart, a'.crossings[i]? = a.crossings[i]? := by
  have hinv := (feed_evolves inv_empty h).inv
  refine ⟨hinv.seq, hinv.stack.outermost_first,
    ⟨(List.pairwise_cons.mp hinv.ends_increasing).2, hinv.ends_le, hinv.ends_last⟩,
    hinv.groupStart_le_open, ?_⟩
  intro more a' hmore i hi
  exact (feed_evolves hinv hmore).ext.getElem? hi

/-- A call of `f` that has returned, and one that has not. -/
def secondCall : List TraceEvent :=
  [{ function := some { name := "f".toList } }, { call := some {} }, { returned := some {} },
    { call := some {} }]

theorem push_structure_secondCall :
    ∃ a, feed push {} secondCall = .ok a ∧ a.groupStart = 1 ∧ a.stack.length = 1 ∧
      ∀ more a', feed push a more = .ok a' → a'.crossings[0]? = a.crossings[0]? := by
  refine ⟨_, rfl, rfl, rfl, fun more a' hmore => ?_⟩
  have hrun : feed push {} secondCall = .ok _ := rfl
  exact (push_structure hrun).2.2.2.2 more a' hmore 0 Nat.one_pos

end Assembler

end Boundarylog
